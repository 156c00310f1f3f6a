/-
The lease state machine (`scheduler.rs`), free of I/O.

Ids are natural numbers: the source counts them in a `u64` from 1, and 2^64
admissions are out of reach. The other counters and times are compared and
subtracted with saturation only, which is `Nat`'s own subtraction. Maps are
`Assoc`: the source iterates over them only to find the holder of an id and
to mark holders, and `SchedulerInv` shows that the order does not matter.
-/
import Mathlib.Algebra.GroupWithZero.Nat
import Mathlib.Data.Finset.Basic
import Mathlib.Data.List.Sort
import Bellows.Lease.Protocol

namespace Bellows.Lease

structure Config where
  machines : List String
  /-- Build jobs a grant gets on an idle machine. -/
  jobs : Nat
  /-- Build jobs a laptop grant gets while a CI job shares the machine. -/
  ciJobs : Nat
  /-- A CI registration nobody stopped is dropped after this long. -/
  ciExpiryMs : Nat
  deriving Repr

def Config.default : Config where
  machines := ["laptop", "desktop"]
  jobs := 24
  ciJobs := 12
  ciExpiryMs := 3 * 60 * 60 * 1000

structure Waiting where
  id : Nat
  request : Request
  sinceMs : Nat
  /-- Set by an administrator: the position this request was moved to. -/
  manualPosition : Option Nat
  deriving DecidableEq, Repr

structure Holder where
  id : Nat
  machine : String
  label : String
  sinceMs : Nat
  estimateSecs : Nat
  session : Bool
  token : Option String
  preempting : Bool
  overrunLogged : Bool
  deriving DecidableEq, Repr

structure Grant where
  id : Nat
  machine : String
  jobs : Nat
  token : Option String
  nested : Bool
  deriving DecidableEq, Repr

inductive Admission where
  | queued (id : Nat)
  /-- Runs at once inside the session whose token it carries. -/
  | nested (grant : Grant)
  | refused (refusal : Refusal)
  deriving DecidableEq, Repr

structure Scheduler where
  config : Config
  nextId : Nat
  waiting : List Waiting
  holders : Assoc String Holder
  nested : Assoc Nat String
  paused : Finset String
  reserved : Assoc String (String × Nat)
  ci : Assoc String (Assoc String Nat)
  mergeQueue : Assoc Nat Nat
  /-- Grants made but not yet claimed by their waiting connection. -/
  unclaimed : Assoc Nat Grant
  tokenSeed : UInt64

/-- `seed` is the clock's reading when the daemon starts. -/
def Scheduler.new (config : Config) (seed : UInt64) : Scheduler where
  config
  nextId := 1
  waiting := []
  holders := ∅
  nested := ∅
  paused := ∅
  reserved := ∅
  ci := ∅
  mergeQueue := ∅
  unclaimed := ∅
  tokenSeed := seed

namespace Scheduler

def knows (s : Scheduler) (machine : String) : Bool := s.config.machines.any (· == machine)

def ciActive (s : Scheduler) (machine : String) (nowMs : Nat) : Bool :=
  (s.ci.lookup machine).any fun jobs =>
    jobs.entries.any fun started => nowMs - started.2 < s.config.ciExpiryMs

def jobs (s : Scheduler) (machine : String) (nowMs : Nat) : Nat :=
  if s.ciActive machine nowMs then s.config.ciJobs else s.config.jobs

/-- The holder whose session a request on its machine with its token joins. -/
def session? (s : Scheduler) (request : Request) : Option (String × Holder) :=
  match request.token, s.holders.lookup request.machine with
  | some token, some holder => if holder.token = some token then some (token, holder) else none
  | _, _ => none

def admitRequest (s : Scheduler) (request : Request) (nowMs : Nat) : Scheduler × Admission :=
  if !s.knows request.machine then
    (s, .refused (.unknownMachine request.machine s.config.machines))
  else
    let id := s.nextId
    let s := { s with nextId := s.nextId + 1 }
    match s.session? request with
    | some (token, holder) =>
      if holder.preempting then (s, .refused .preempted)
      else
        ({ s with nested := s.nested.insert id request.machine },
          .nested { id, machine := request.machine, jobs := s.jobs request.machine nowMs,
                    token := some token, nested := true })
    | none =>
      ({ s with waiting := s.waiting ++ [{ id, request, sinceMs := nowMs, manualPosition := none }] },
        .queued id)

/-- `usize::MAX` on the 64-bit hosts the daemon runs on. -/
def usizeMax : Nat := 2 ^ 64 - 1

def queuePosition (s : Scheduler) (w : Waiting) : Nat :=
  (w.request.pr.bind s.mergeQueue.lookup).getD usizeMax

/-- `a` sorts at or before `b`: the source's sort key, compared field by
field, priority descending. -/
def Before (s : Scheduler) (a b : Waiting) : Prop :=
  b.request.priority < a.request.priority ∨ b.request.priority = a.request.priority ∧
    (s.queuePosition a < s.queuePosition b ∨ s.queuePosition a = s.queuePosition b ∧
      (a.sinceMs < b.sinceMs ∨ a.sinceMs = b.sinceMs ∧ a.id ≤ b.id))

instance (s : Scheduler) (a b : Waiting) : Decidable (s.Before a b) := by
  unfold Before; infer_instance

/-- `a` was moved to a position at or before `b`'s; an unmoved request would
sort first, but the source sorts only moved ones. -/
def MovedBefore (a b : Waiting) : Prop :=
  match a.manualPosition, b.manualPosition with
  | none, none => a.id ≤ b.id
  | none, some _ => True
  | some _, none => False
  | some p, some q => p < q ∨ p = q ∧ a.id ≤ b.id

instance (a b : Waiting) : Decidable (MovedBefore a b) := by
  unfold MovedBefore; split <;> infer_instance

/-- Puts a moved request where it was moved to, or last. -/
def insertMoved (queue : List Waiting) (w : Waiting) : List Waiting :=
  queue.insertIdx (min (w.manualPosition.getD 0) queue.length) w

/-- Requests for `machine` in grant order. -/
def order (s : Scheduler) (machine : String) : List Waiting :=
  let automatic := (s.waiting.filter fun w =>
    w.request.machine == machine && w.manualPosition.isNone).insertionSort s.Before
  let manual := (s.waiting.filter fun w =>
    w.request.machine == machine && w.manualPosition.isSome).insertionSort MovedBefore
  manual.foldl insertMoved automatic

def position (s : Scheduler) (id : Nat) : Option Nat := do
  let w ← s.waiting.find? (·.id == id)
  (s.order w.request.machine).findIdx? (·.id == id)

def holderLabel (s : Scheduler) (machine : String) : Option String :=
  (s.holders.lookup machine).map (·.label)

/-- Rust's `{:016x}`. -/
def hex16 (n : UInt64) : String :=
  let digits := Nat.toDigits 16 n.toNat
  String.ofList (List.replicate (16 - digits.length) '0' ++ digits)

def token (s : Scheduler) (id : Nat) : Scheduler × String :=
  let seed := s.tokenSeed * 6364136223846793005 + 1442695040888963407
  ({ s with tokenSeed := seed }, toString id ++ "-" ++ hex16 seed)

/-- The label an unexpired reservation keeps `machine` for. -/
def reservation (s : Scheduler) (machine : String) (nowMs : Nat) : Option String :=
  ((s.reserved.lookup machine).filter fun r => nowMs < r.2).map (·.1)

/-- A request the reservation, if any, lets through: its label contains the
reservation's. -/
def allowed (reservation : Option String) (w : Waiting) : Bool :=
  reservation.all fun label => decide (label.toList <:+: w.request.label.toList)

/-- The first request for `machine`, in grant order, its reservation lets through. -/
def eligible (s : Scheduler) (machine : String) (nowMs : Nat) : Option Waiting :=
  (s.order machine).find? (allowed (s.reservation machine nowMs))

/-- Neither held nor paused: `grant` looks for a request to give it to. -/
def free (s : Scheduler) (machine : String) : Bool :=
  (s.holders.lookup machine).isNone && !decide (machine ∈ s.paused)

/-- Takes the request with this id out of the queue and makes it the
machine's holder. `none` where the source's `expect` would fail. -/
def grantTo (s : Scheduler) (machine : String) (id nowMs : Nat) : Option (Scheduler × Grant) := do
  let index ← s.waiting.findIdx? (·.id == id)
  let w ← s.waiting[index]?
  let s := { s with waiting := s.waiting.eraseIdx index }
  let (s, token) := if w.request.session then
      let (s, token) := s.token id
      (s, some token)
    else (s, none)
  let jobs := s.jobs machine nowMs
  let holder : Holder :=
    { id, machine, label := w.request.label, sinceMs := nowMs,
      estimateSecs := w.request.estimateSecs, session := w.request.session, token,
      preempting := false, overrunLogged := false }
  let grant : Grant := { id, machine, jobs, token, nested := false }
  return ({ s with holders := s.holders.insert machine holder,
                   unclaimed := s.unclaimed.insert id grant }, grant)

/-- One round of `grant`'s loop: the state and the grants so far. -/
def grantMachine (nowMs : Nat) (acc : Scheduler × List Grant) (machine : String) :
    Scheduler × List Grant :=
  let (s, grants) := acc
  if !s.free machine then acc
  else match s.eligible machine nowMs with
    | none => acc
    | some w =>
      match s.grantTo machine w.id nowMs with
      | none => acc
      | some (s, grant) => (s, grants ++ [grant])

/-- Grants every free machine to its first eligible request. -/
def grant (s : Scheduler) (nowMs : Nat) : Scheduler × List Grant :=
  s.config.machines.foldl (grantMachine nowMs) (s, [])

/-- The grant made for `id`, once, whichever connection's call made it. -/
def claim (s : Scheduler) (id : Nat) : Scheduler × Option Grant :=
  ({ s with unclaimed := s.unclaimed.erase id }, s.unclaimed.lookup id)

/-- Ends a request or lease, whatever its state. Returns the holder it
freed, if it was one. -/
def release (s : Scheduler) (id : Nat) : Scheduler × Option Holder :=
  let s := { s with waiting := s.waiting.filter (·.id != id), unclaimed := s.unclaimed.erase id }
  if (s.nested.lookup id).isSome then ({ s with nested := s.nested.erase id }, none)
  else match s.holders.findValue (·.id == id) with
    | none => (s, none)
    | some (machine, _) => ({ s with holders := s.holders.erase machine }, s.holders.lookup machine)

def isWaiting (s : Scheduler) (id : Nat) : Bool := s.waiting.any (·.id == id)

def holds (s : Scheduler) (id : Nat) : Bool :=
  (s.holders.findValue (·.id == id)).isSome || (s.nested.lookup id).isSome

/-- Moves the first request with this id, as `iter_mut().find` does. -/
def moveTo (id position : Nat) : List Waiting → List Waiting
  | [] => []
  | w :: ws =>
    if w.id == id then { w with manualPosition := some position } :: ws
    else w :: moveTo id position ws

def reorder (s : Scheduler) (id position : Nat) : Scheduler × Bool :=
  if s.isWaiting id then ({ s with waiting := moveTo id position s.waiting }, true) else (s, false)

def setPaused (s : Scheduler) (machine : String) (paused : Bool) : Scheduler :=
  if paused then { s with paused := insert machine s.paused }
  else { s with paused := s.paused.erase machine }

def reserve (s : Scheduler) (machine : String) (label : Option (String × Nat)) : Scheduler :=
  match label with
  | some reservation => { s with reserved := s.reserved.insert machine reservation }
  | none => { s with reserved := s.reserved.erase machine }

/-- Marks a session to end at its next boundary. Returns whether it held. -/
def preempt (s : Scheduler) (id : Nat) : Scheduler × Bool :=
  match s.holders.findValue (·.id == id) with
  | some (machine, holder) =>
    ({ s with holders := s.holders.insert machine { holder with preempting := true } }, true)
  | none => (s, false)

def ciStart (s : Scheduler) (machine job : String) (nowMs : Nat) : Scheduler :=
  { s with ci := s.ci.insert machine (((s.ci.lookup machine).getD ∅).insert job nowMs) }

def ciStop (s : Scheduler) (machine job : String) : Scheduler :=
  match s.ci.lookup machine with
  | some jobs => { s with ci := s.ci.insert machine (jobs.erase job) }
  | none => s

def setMergeQueue (s : Scheduler) (positions : Assoc Nat Nat) : Scheduler :=
  { s with mergeQueue := positions }

/-- Past 1.5 times its estimate; `saturating_mul` in a `u64`. -/
def overrun (nowMs : Nat) (holder : Holder) : Bool :=
  !holder.overrunLogged && min (holder.estimateSecs * 1500) (2 ^ 64 - 1) < nowMs - holder.sinceMs

/-- Holders past 1.5 times their estimate, reported once each. -/
def overruns (s : Scheduler) (nowMs : Nat) : Scheduler × List Holder :=
  ({ s with holders := s.holders.mapValues fun h =>
      if overrun nowMs h then { h with overrunLogged := true } else h },
    (s.holders.entries.filter fun e => overrun nowMs e.2).map
      fun e => { e.2 with overrunLogged := true })

end Scheduler

end Bellows.Lease
