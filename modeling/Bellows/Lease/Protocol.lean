/-
Messages of the lease daemon (`protocol.rs`): what a client and an
administrator send over the socket and what the daemon answers. The status
report, which no operation reads back, is left out.
-/
import Bellows.Lib.Assoc

namespace Bellows.Lease

/-- A request for a machine. `clientPid` is carried and never read. -/
structure Request where
  machine : String
  label : String
  priority : Int := 0
  /-- A pull request whose merge-queue position ranks this request. -/
  pr : Option Nat := none
  estimateSecs : Nat
  /-- A session lease: hands out a token for nested runs. -/
  session : Bool := false
  /-- The token of the session this request runs inside, if any. -/
  token : Option String := none
  clientPid : Nat := 0
  deriving DecidableEq, Repr

inductive AdminAction where
  /-- Move a queued request to a position (0 = next). -/
  | reorder (id position : Nat)
  | pause (machine : String)
  | resume (machine : String)
  /-- End a session at its next command boundary. -/
  | preempt (id : Nat)
  /-- Only requests whose label contains `label` are granted until `untilMs`. -/
  | reserve (machine label : String) (untilMs : Nat)
  | unreserve (machine : String)
  /-- Remove a queued request, or revoke a held lease (its job is killed). -/
  | cancel (id : Nat)
  deriving DecidableEq, Repr

/-- Messages from the client after its lease is granted. -/
inductive ClientEvent where
  | spawned (pgid : Int)
  | done (code : Int)
  deriving DecidableEq, Repr

/-- Why the scheduler refuses a request. -/
inductive Refusal where
  | unknownMachine (machine : String) (known : List String)
  | preempted
  deriving DecidableEq, Repr

/-- The refusal's text; `debug` is Rust's `{:?}` of a string. -/
def Refusal.reason (debug : String → String) : Refusal → String
  | .unknownMachine machine known =>
    "unknown machine " ++ debug machine ++ " (known: " ++ ", ".intercalate known ++ ")"
  | .preempted => "the session was preempted: it ends at this boundary"

inductive Reply where
  | queued (id position : Nat) (holder : Option String)
  /-- `token`: for a session, the token nested runs present. -/
  | granted (id jobs : Nat) (token : Option String) (nested : Bool)
  | refused (reason : String)
  /-- The lease was revoked by an administrator: stop the job now. -/
  | revoked (reason : String)
  /-- The session ends at its next command boundary. -/
  | preempting
  | ok
  deriving DecidableEq, Repr

end Bellows.Lease
