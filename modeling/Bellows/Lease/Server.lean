/-
The lease daemon (`server.rs`): any number of connections, each a task that
takes one request from admission to its end, around the shared scheduler and
mailboxes.

A step is what a task does between two points where another may run: what it
does under one hold of the scheduler's lock, one access to the mailboxes,
one message sent or received. What comes from outside is part of the event:
the clock's reading, what the client sent, whether a send succeeded. An
administrator's Preempt or Cancel holds the scheduler's lock while it waits
for the mailboxes', so it is two steps, and no task uses the scheduler in
between (`lock`).

A connection that never sends a readable request has no task here; one that
asks for something else than a lease is a step of the daemon's. What a task
sends its own client is not kept, only whether the send succeeded; nor is
the log file.
-/
import Bellows.Lease.SchedulerInv

namespace Bellows.Lease

/-- What `wait_for_grant` last reported: a queue position and the holder's label. -/
abbrev Report := Nat × Option String

/-- What a request's task does next. -/
inductive Phase where
  /-- `lease` asks for admission. -/
  | connected
  /-- Refused; about to say so. `spent`: the id a refusal inside `admit` used up. -/
  | refusing (spent : Option Nat) (refusal : Refusal)
  /-- At the top of `wait_for_grant`'s loop. -/
  | waiting (id : Nat) (machine : String) (last : Option Report)
  /-- About to send `Queued`, off the lock. -/
  | reporting (id : Nat) (machine : String) (report : Report)
  /-- In the loop's `select`. -/
  | idle (id : Nat) (machine : String) (last : Option Report)
  /-- Found itself neither granted nor waiting; about to send `Refused`. -/
  | cancelled (id : Nat)
  /-- `wait_for_grant` returned no grant; about to release. -/
  | abandoning (id : Nat)
  /-- Has its grant, and no mailbox yet. -/
  | granted (id : Nat) (grant : Grant)
  /-- Has its mailbox; about to send `Granted`. -/
  | registered (id : Nat) (grant : Grant)
  /-- In the lease's loop. -/
  | running (id : Nat) (pgid : Option Int)
  /-- Out of the loop; about to remove its mailbox. -/
  | finishing (id : Nat) (pgid : Option Int) (code : Option Int)
  /-- About to kill what a vanished client left running. -/
  | killing (id : Nat) (pgid : Option Int) (code : Option Int)
  | releasing (id : Nat)
  | regranting (id : Nat)
  /-- The task has returned. -/
  | ended (id : Option Nat)
  deriving DecidableEq, Repr

/-- The id of the connection's request, once it has one. -/
def Phase.id? : Phase → Option Nat
  | .connected => none
  | .refusing spent _ => spent
  | .waiting id _ _ | .reporting id _ _ | .idle id _ _ | .cancelled id | .abandoning id
  | .granted id _ | .registered id _ | .running id _ | .finishing id _ _ | .killing id _ _
  | .releasing id | .regranting id => some id
  | .ended id => id

/-- The task has returned, and dropped its inbox's receiver. -/
def Phase.isEnded : Phase → Bool
  | .ended _ => true
  | _ => false

structure Conn where
  phase : Phase
  /-- Every message put in its inbox, oldest first. -/
  inbox : List Reply
  /-- How many of them its task has taken out. -/
  read : Nat

structure Shared where
  logged : Logged
  /-- The administrator's action whose task holds the scheduler's lock. -/
  lock : Option AdminAction
  /-- The connection at the other end of each request's mailbox. -/
  mailboxes : Assoc Nat Nat
  /-- Process groups killed by `kill_group`. -/
  killed : List Int
  /-- Administrators' actions answered, and whether with `Ok`. -/
  answers : List (AdminAction × Bool)

namespace Shared

def scheduler (s : Shared) : Scheduler := s.logged.scheduler

def apply (s : Shared) (op : Op) : Shared := { s with logged := s.logged.apply op }

def answer (s : Shared) (action : AdminAction) (ok : Bool) : Shared :=
  { s with lock := none, answers := s.answers ++ [(action, ok)] }

/-- `admin` up to its answer, or up to where it waits for the mailboxes. -/
def admin (s : Shared) (action : AdminAction) : Shared :=
  match action with
  | .reorder id position =>
    (s.apply (.reorder id position)).answer action (s.scheduler.reorder id position).2
  | .pause machine => (s.apply (.setPaused machine true)).answer action (s.scheduler.knows machine)
  | .resume machine => (s.apply (.setPaused machine false)).answer action (s.scheduler.knows machine)
  | .preempt id =>
    if (s.scheduler.preempt id).2 then { s.apply (.preempt id) with lock := some action }
    else (s.apply (.preempt id)).answer action false
  | .reserve machine label untilMs =>
    (s.apply (.reserve machine (some (label, untilMs)))).answer action (s.scheduler.knows machine)
  | .unreserve machine => (s.apply (.reserve machine none)).answer action true
  | .cancel id =>
    if s.scheduler.holds id then { s with lock := some action }
    else (s.apply (.release id)).answer action (s.scheduler.isWaiting id)

end Shared

/-- What happens to a connection's task, or what it does. -/
inductive ConnEvent where
  | admitRequest (request : Request) (nowMs : Nat)
  | poll (nowMs : Nat)
  /-- The send under way succeeds or fails. -/
  | send (ok : Bool)
  /-- Something changed, 15 seconds passed, or the waiting client sent a line. -/
  | wake
  /-- The client closed the connection, or reading from it failed. -/
  | hangup
  /-- The client sent a line; `none` when it is no `ClientEvent`. -/
  | line (event : Option ClientEvent)
  /-- A message is taken from the inbox and passed on, whether or not that works. -/
  | receive
  | register
  | unregister
  | kill
  | release
  | regrant (nowMs : Nat)
  deriving Repr

namespace Conn

def goto (conn : Conn) (phase : Phase) : Conn := { conn with phase }

/-- Puts a message in the inbox. -/
def put (conn : Conn) (reply : Reply) : Conn := { conn with inbox := conn.inbox ++ [reply] }

/-- `lease`'s first step. -/
def admitRequest (shared : Shared) (conn : Conn) (request : Request) (nowMs : Nat) : Shared × Conn :=
  let after := shared.apply (.admitRequest request nowMs)
  match (shared.scheduler.admitRequest request nowMs).2 with
  | .refused refusal =>
    let spent := if after.scheduler.nextId = shared.scheduler.nextId then none
      else some shared.scheduler.nextId
    (after, conn.goto (.refusing spent refusal))
  | .nested grant => (after, conn.goto (.granted grant.id grant))
  | .queued id => (after, conn.goto (.waiting id request.machine none))

/-- What `wait_for_grant` does under the scheduler's lock. -/
def poll (shared : Shared) (conn : Conn) (id : Nat) (machine : String) (last : Option Report)
    (nowMs : Nat) : Shared × Conn :=
  let granted := shared.apply (.grant nowMs)
  let claimed := granted.apply (.claim id)
  match (granted.scheduler.claim id).2 with
  | some grant => (claimed, conn.goto (.granted id grant))
  | none =>
    if !claimed.scheduler.isWaiting id then (claimed, conn.goto (.cancelled id))
    else
      let report := ((claimed.scheduler.position id).getD 0, claimed.scheduler.holderLabel machine)
      if last ≠ some report then (claimed, conn.goto (.reporting id machine report))
      else (claimed, conn.goto (.idle id machine last))

/-- `kill_group`, when the client went away while its job ran. -/
def killed (pgid code : Option Int) : List Int :=
  if code.isNone then (pgid.filter (1 < ·)).toList else []

/-- One step of connection `c`'s task. -/
def step (shared : Shared) (c : Nat) (conn : Conn) (event : ConnEvent) : Option (Shared × Conn) :=
  match conn.phase, event with
  | .connected, .admitRequest request nowMs =>
    if shared.lock.isSome then none else some (conn.admitRequest shared request nowMs)
  | .refusing spent _, .send _ => some (shared, conn.goto (.ended spent))
  | .waiting id machine last, .poll nowMs =>
    if shared.lock.isSome then none else some (conn.poll shared id machine last nowMs)
  | .reporting id machine report, .send ok =>
    -- A failed send returns at once, past the release in `lease`.
    some (shared, conn.goto (if ok then .idle id machine (some report) else .ended (some id)))
  | .idle id machine last, .wake => some (shared, conn.goto (.waiting id machine last))
  | .idle id _ _, .hangup => some (shared, conn.goto (.abandoning id))
  | .cancelled id, .send ok => some (shared, conn.goto (if ok then .abandoning id else .ended (some id)))
  | .abandoning id, .release | .releasing id, .release =>
    if shared.lock.isSome then none else some (shared.apply (.release id), conn.goto (.regranting id))
  | .granted id grant, .register =>
    some ({ shared with mailboxes := shared.mailboxes.insert id c }, conn.goto (.registered id grant))
  | .registered id _, .send ok =>
    -- Likewise: the mailbox and the lease stay behind.
    some (shared, conn.goto (if ok then .running id none else .ended (some id)))
  | .running id _, .line (some (.spawned group)) => some (shared, conn.goto (.running id (some group)))
  | .running _ _, .line none => some (shared, conn)
  | .running id pgid, .line (some (.done code)) => some (shared, conn.goto (.finishing id pgid (some code)))
  | .running id pgid, .hangup => some (shared, conn.goto (.finishing id pgid none))
  | .running _ _, .receive =>
    if conn.read < conn.inbox.length then some (shared, { conn with read := conn.read + 1 }) else none
  | .finishing id pgid code, .unregister =>
    some ({ shared with mailboxes := shared.mailboxes.erase id }, conn.goto (.killing id pgid code))
  | .killing id pgid code, .kill =>
    some ({ shared with killed := shared.killed ++ killed pgid code }, conn.goto (.releasing id))
  | .regranting id, .regrant nowMs =>
    if shared.lock.isSome then none else some (shared.apply (.grant nowMs), conn.goto (.ended (some id)))
  | _, _ => none

end Conn

/-- The daemon's other uses of the scheduler. -/
inductive Housekeeping where
  | ciStart (machine job : String) (nowMs : Nat)
  | ciStop (machine job : String)
  /-- `watch_merge_queue` has polled the repository. -/
  | mergeQueue (positions : Assoc Nat Nat)
  | overruns (nowMs : Nat)

/-- CI jobs start on the daemon's own machines only. -/
def Housekeeping.run (shared : Shared) : Housekeeping → Shared
  | .ciStart machine job nowMs =>
    if shared.scheduler.knows machine then shared.apply (.ciStart machine job nowMs) else shared
  | .ciStop machine job => shared.apply (.ciStop machine job)
  | .mergeQueue positions => shared.apply (.setMergeQueue positions)
  | .overruns nowMs => shared.apply (.overruns nowMs)

structure Server where
  shared : Shared
  conns : Nat → Conn

inductive Event where
  | conn (c : Nat) (event : ConnEvent)
  | admin (action : AdminAction)
  /-- The action that holds the scheduler's lock gets the mailboxes'. -/
  | mailbox
  | housekeeping (task : Housekeeping)

namespace Server

def new (config : Config) (seed : UInt64) : Server where
  shared := { logged := .new config seed, lock := none, mailboxes := ∅, killed := [], answers := [] }
  conns _ := { phase := .connected, inbox := [], read := 0 }

/-- `mailbox.send`, its outcome dropped: nothing is delivered when no mailbox
is registered for `id`, or its receiver is gone. -/
def deliver (s : Server) (id : Nat) (reply : Reply) : Server :=
  match s.shared.mailboxes.lookup id with
  | none => s
  | some c =>
    if (s.conns c).phase.isEnded then s
    else { s with conns := Function.update s.conns c ((s.conns c).put reply) }

def revoked : Reply := .revoked "cancelled by an administrator"

/-- `admin` from where it waits for the mailboxes to its answer. -/
def mailbox (s : Server) : Option Server :=
  let answer (action : AdminAction) (id : Nat) (reply : Reply) :=
    let s := s.deliver id reply
    { s with shared := s.shared.answer action true }
  match s.shared.lock with
  | some (.preempt id) => some (answer (.preempt id) id .preempting)
  | some (.cancel id) => some (answer (.cancel id) id revoked)
  | _ => none

def step (s : Server) : Event → Option Server
  | .conn c event =>
    (Conn.step s.shared c (s.conns c) event).map fun (shared, conn) =>
      { shared, conns := Function.update s.conns c conn }
  | .admin action => if s.shared.lock.isSome then none else some { s with shared := s.shared.admin action }
  | .mailbox => s.mailbox
  | .housekeeping task =>
    if s.shared.lock.isSome then none else some { s with shared := task.run s.shared }

/-- One step of the daemon. -/
def Step (s : Server) (event : Event) (t : Server) : Prop := s.step event = some t

end Server

end Bellows.Lease
