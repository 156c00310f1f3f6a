/-
The discipline of the compiler wrapper: what it has been told is entered in a
ledger, and every call it makes is one the ledger permits, whatever anything
answers. What it ends with is accounted for by the ledger too.

A wrapper looks for a result with nothing in its hands (`Looking`), may then
hold the lease (`Holding`), and compiles. Each part of it is given what it
needs of the ledger and says what it leaves.
-/
import Bellows.Cli.Wrapper

namespace Bellows.Cli.Wrapper

open Text Dialogue Bellows.Core Bellows.Service

/-! ## The ledger -/

/-- What there is to say of the wait for another's lease. -/
structure Patience where
  /-- The server did not list its candidates, or did not answer for the lease. -/
  unanswered : Bool
  /-- Until when the owner's lease lasts, for one that waits. -/
  waiting : Option Nat
  /-- How long it may be waited, and how long it was. -/
  maxWait : Nat
  slept : Nat
  /-- The owner's lease was over when the clock was last read. -/
  late : Bool

def Patience.start : Patience := ⟨false, none, 0, 0, false⟩

/-- The server does not answer, or it was waited for long enough. -/
def Patience.Over (w : Patience) : Prop :=
  w.unanswered = true ∨ (w.waiting.isSome = true ∧ (w.late = true ∨ w.maxWait ≤ w.slept))

/-- What the wrapper has been told. -/
structure Ledger where
  /-- `BELLOWS_LOCAL_ONLY` is 1. -/
  localOnly : Bool
  /-- `Remote::new` succeeded. -/
  connected : Bool
  /-- The local store is open. -/
  opened : Bool
  /-- The candidate that was accepted last, with nothing refused since. -/
  validated : Option ActionCandidate
  /-- The blobs that came for a restore, with their digests. -/
  fetched : List BlobBytes
  /-- The candidate whose outputs were installed. -/
  restored : Option ActionCandidate
  /-- The lease in hand: its key and token. -/
  lease : Option (Text × Text)
  /-- The incremental directory has an earlier session. -/
  reused : Bool
  patience : Patience
  run : Option RustcRun
  stored : Option Stored
  /-- `BELLOWS_READ_ONLY` is 1. -/
  readOnly : Bool
  /-- What the local store has taken. -/
  localBlobs : List BlobBytes
  /-- What the server has taken. -/
  remoteBlobs : List BlobBytes
  /-- What official rustc ended with, retried. -/
  passed : Option (Except String ExitStatus)

def Ledger.start : Ledger := 
  ⟨false, false, false, none, [], none, none, false, ⟨false, none, 0, 0, false⟩, none, none, false, [], [], none⟩

/-- Nothing was restored, and nothing compiled. -/
structure Ledger.Unsettled (l : Ledger) : Prop where
  restored : l.restored = none
  run : l.run = none
  passed : l.passed = none

/-- The result may be stored: of a run from scratch, by a client that may
write. -/
def Ledger.MayStore (l : Ledger) (stored : Stored) : Prop := l.stored = some stored ∧ l.readOnly = false

/-- What may be called. -/
def Permits (l : Ledger) : Call → Prop
  | .connect .. => l.localOnly = false
  | .remoteCandidates _ | .remoteBlobs _ | .remoteRecordUse _ => l.connected = true
  | .readCandidates _ | .readBlobs _ | .recordUse _ => l.opened = true
  | .install candidate blobs => l.Unsettled ∧ l.lease = none ∧ l.validated = some candidate ∧
      blobs.length = (restoredDigests candidate).length
  | .acquire .. => l.connected = true ∧ l.Unsettled ∧ l.lease = none
  | .release staticKey token => l.connected = true ∧ l.lease = some (staticKey, token)
  | .rustc .. => l.Unsettled ∧ (l.lease.isSome = true ∨ l.connected = false ∨ l.patience.Over)
  | .capture request => l.reused = false ∧ l.run = some request.run ∧ request.run.status.success = true
  | .putBlob blob => l.opened = true ∧ (blob ∈ l.fetched ∨ ∃ stored, l.MayStore stored ∧ blob ∈ stored.blobs)
  | .putCandidate candidate => l.opened = true ∧ (l.restored = some candidate ∨
      ∃ stored, l.MayStore stored ∧ stored.candidate = candidate ∧ ∀ blob ∈ stored.blobs, blob ∈ l.localBlobs)
  | .remotePutBlobs blobs => l.connected = true ∧ ∃ stored, l.MayStore stored ∧ stored.blobs = blobs
  | .remotePutCandidate candidate => l.connected = true ∧
      ∃ stored, l.MayStore stored ∧ stored.candidate = candidate ∧ ∀ blob ∈ stored.blobs, blob ∈ l.remoteBlobs
  | .passthrough _ => l.restored = none ∧ l.lease = none ∧ ∀ status, l.passed ≠ some (.ok status)
  | _ => True

/-- What an answer enters. -/
def Ledger.enter (l : Ledger) : (c : Call) → Answer c → Ledger
  | .var name, (value : Option String) =>
    if name = "BELLOWS_LOCAL_ONLY" then { l with localOnly := value == some "1" }
    else if name = "BELLOWS_READ_ONLY" then { l with readOnly := value == some "1" }
    else if name = "BELLOWS_MAX_WAIT_MS" then
      { l with patience.maxWait := (boundedTimeout name value 30000 0 600000).toOption.getD 0 }
    else l
  | .nowMs, (now : Nat) => { l with patience.late := l.patience.waiting.any (· ≤ now) }
  | .deadline, (passed : Nat) => { l with patience.slept := passed }
  | .sleep ms, (more : Nat) => { l with patience.slept := l.patience.slept + ms + more }
  | .remoteCandidates _, .error _ =>
    { l with patience.unanswered := l.patience.unanswered || l.patience.waiting.isNone }
  | .connect .., .ok () => { l with connected := true }
  | .openStore _, .ok () => { l with opened := true }
  | .validate candidate, .ok () => { l with validated := some candidate }
  | .validate _, .error _ => { l with validated := none }
  | .remoteBlobs digests, .ok blobs => { l with fetched := digests.zip blobs }
  | .install candidate _, .ok () => { l with restored := some candidate }
  | .acquire staticKey _, .ok (.owned token _) => { l with lease := some (staticKey, token) }
  | .acquire .., .ok (.wait _ expiresMs) => { l with patience.waiting := l.patience.waiting.or (some expiresMs) }
  | .acquire .., .error _ => { l with patience.unanswered := true }
  | .release .., () => { l with lease := none }
  | .hasEntries _, answer => { l with reused := answer }
  | .rustc .., .ok run => { l with run := some run }
  | .capture _, .ok stored => { l with stored := some stored }
  | .putBlob blob, .ok () => { l with localBlobs := blob :: l.localBlobs }
  | .remotePutBlobs blobs, .ok () => { l with remoteBlobs := blobs ++ l.remoteBlobs }
  | .passthrough _, result => { l with passed := some result }
  | _, _ => l

/-- The wrapper's result is accounted for: by what was restored, by the run of
rustc, or by the retried one; and no lease is left in its hands. -/
structure Settled (l : Ledger) (result : Except String ExitStatus) : Prop where
  released : l.lease = none
  status : ∀ status, result = .ok status →
    (status = success ∧ l.restored.isSome = true ∧ l.run = none) ∨
      (l.restored = none ∧ ∃ run, l.run = some run ∧ run.status = status) ∨ l.passed = some (.ok status)
  error : ∀ error, result = .error error → l.passed = some (.error error)

def ledger : Monitor Answer Ledger := ⟨Permits, Ledger.enter⟩

/-! ## What is known between the parts -/

/-- The caches that the job has are there, and the lease in hand is of this
token, if any. Official rustc was not asked again. -/
structure Holding (job : Job) (token : Option Text) (l : Ledger) : Prop where
  connected : l.connected = job.remote
  opened : job.l1 = true → l.opened = true
  lease : l.lease = token.map fun token => (job.staticKey, token)
  remote : token.isSome = true → job.remote = true
  passed : l.passed = none

/-- Nothing was restored, and nothing compiled. -/
structure Ready (job : Job) (token : Option Text) (w : Patience) (l : Ledger) : Prop extends Holding job token l where
  restored : l.restored = none
  run : l.run = none
  scratch : l.reused = false
  patience : l.patience = w

/-- The candidate's outputs are installed, and nothing was compiled. -/
structure Hit (job : Job) (candidate : ActionCandidate) (l : Ledger) : Prop extends Holding job none l where
  restored : l.restored = some candidate
  run : l.run = none

variable {job : Job} {token : Option Text} {w : Patience} {l : Ledger} {β : Type} {R : Ledger → β → Prop}

theorem Ready.unsettled (h : Ready job token w l) : l.Unsettled := ⟨h.restored, h.run, h.passed⟩

theorem Ready.validated (h : Ready job token w l) (v : Option ActionCandidate) :
    Ready job token w { l with validated := v } :=
  ⟨⟨h.connected, h.opened, h.lease, h.remote, h.passed⟩, h.restored, h.run, h.scratch, h.patience⟩

theorem Ready.fetched (h : Ready job token w l) (blobs : List BlobBytes) :
    Ready job token w { l with fetched := blobs } :=
  ⟨⟨h.connected, h.opened, h.lease, h.remote, h.passed⟩, h.restored, h.run, h.scratch, h.patience⟩

theorem Ready.waits (h : Ready job token w l) {w' v : Patience} (hw : w' = v) :
    Ready job token v { l with patience := w' } :=
  ⟨⟨h.connected, h.opened, h.lease, h.remote, h.passed⟩, h.restored, h.run, h.scratch, hw⟩

theorem Holding.localBlobs (h : Holding job token l) (blobs : List BlobBytes) :
    Holding job token { l with localBlobs := blobs } :=
  ⟨h.connected, h.opened, h.lease, h.remote, h.passed⟩

theorem Hit.settled {candidate : ActionCandidate} (h : Hit job candidate l) : Settled l (.ok success) where
  released := h.lease
  status status hstatus := by
    cases hstatus
    exact .inl ⟨rfl, by rw [h.restored]; rfl, h.run⟩
  error error herror := by cases herror

/-- What is recorded changes nothing. -/
theorem obeys_record {kind detail : String} {actionKey : Option Text} {f : Unit → Asking β}
    (h : (f ()).Obeys ledger R l) : (job.record kind detail actionKey >>= f).Obeys ledger R l :=
  ⟨trivial, fun _ => h⟩

/-! ## Restoring -/

/-- A fetch asks for blobs, and no more. -/
def Fetches (job : Job) (candidate : ActionCandidate) (fetch : List Text → Asking (Except String (List (List UInt8)))) :
    Prop :=
  ∀ w l digests, Ready job none w l → l.validated = some candidate →
    (fetch digests).Obeys ledger (fun l' _ => Ready job none w l' ∧ l'.validated = some candidate) l

theorem fetches_readBlobs (hl1 : job.l1 = true) (candidate : ActionCandidate) :
    Fetches job candidate fun digests => readBlobs digests := fun _ _ _ hready hvalid =>
  ⟨hready.opened hl1, fun _ => ⟨hready, hvalid⟩⟩

theorem fetches_remote (hremote : job.remote = true) (candidate : ActionCandidate) :
    Fetches job candidate (fetchRemote job) := by
  intro w l digests hready hvalid
  refine .ask_bind (hready.connected.trans hremote) fun answer => ?_
  cases answer with
  | error error => exact ⟨hready, hvalid⟩
  | ok blobs =>
    by_cases hl1 : job.l1 = true
    · have hloop : ((digests.zip blobs).forM fun blob => do let _ ← putBlob blob).Obeys ledger
          (fun l' _ => Ready job none w l' ∧ l'.validated = some candidate ∧ l'.fetched = digests.zip blobs)
          { l with fetched := digests.zip blobs } := by
        refine obeys_forM _ ⟨hready.fetched _, hvalid, rfl⟩ fun blob hblob l' hl' => ?_
        obtain ⟨hr, hv, hf⟩ := hl'
        refine .ask_bind ⟨hr.opened hl1, .inl (hf ▸ hblob)⟩ fun answer => ?_
        cases answer with
        | error error => exact ⟨hr, hv, hf⟩
        | ok _ => exact ⟨⟨hr.toHolding.localBlobs _, hr.restored, hr.run, hr.scratch, hr.patience⟩, hv, hf⟩
      simp only [hl1, if_true]
      exact hloop.bind fun l' _ hl' => ⟨hl'.1, hl'.2.1⟩
    · simp only [hl1]
      exact ⟨hready.fetched _, hvalid⟩

theorem restoreWith_obeys {candidate : ActionCandidate} {fetch : List Text → Asking (Except String (List (List UInt8)))}
    (hfetch : Fetches job candidate fetch) (hready : Ready job none w l) (hvalid : l.validated = some candidate) :
    (restoreWith candidate fetch).Obeys ledger (fun l' result => match result with
      | .ok () => Hit job candidate l'
      | .error _ => Ready job none w l') l := by
  refine .ask_bind trivial fun answer => ?_
  cases answer with
  | error error => exact hready
  | ok _ =>
    refine (hfetch w l _ hready hvalid).bind fun l' fetched hl' => ?_
    obtain ⟨hready', hvalid'⟩ := hl'
    cases fetched with
    | error error => exact hready'
    | ok blobs =>
      dsimp only
      split
      · exact hready'
      next hlength =>
        refine ⟨⟨hready'.unsettled, hready'.lease, hvalid', not_not.1 hlength⟩, fun answer => ?_⟩
        cases answer with
        | error error => exact hready'
        | ok _ =>
          exact ⟨⟨hready'.connected, hready'.opened, hready'.lease, hready'.remote, hready'.passed⟩, rfl, hready'.run⟩

/-- A candidate was restored, or none of them. -/
def Tried (job : Job) (w : Patience) (l : Ledger) : Option ExitStatus → Prop
  | some status => status = success ∧ ∃ candidate, Hit job candidate l
  | none => Ready job none w l

theorem tryCandidates_obeys (hremote : job.remote = true) (index : List ActionCandidate) {l : Ledger}
    (hready : Ready job none w l) : (tryCandidates job index).Obeys ledger (Tried job w) l := by
  induction index generalizing l with
  | nil => exact hready
  | cons candidate rest ih =>
    refine .ask_bind trivial fun answer => ?_
    cases answer with
    | error reason => exact obeys_record (ih (hready.validated none))
    | ok _ =>
      refine .ask_bind (hready.connected.trans hremote) fun _ => ?_
      refine (restoreWith_obeys (fetches_remote hremote candidate) (hready.validated _) rfl).bind fun l' result hl' => ?_
      cases result with
      | error error => exact obeys_record (ih hl')
      | ok _ =>
        have hhit : Hit job candidate l' := hl'
        by_cases hl1 : job.l1 = true
        · simp only [hl1, if_true]
          refine .ask_bind ⟨hhit.opened hl1, .inl hhit.restored⟩ fun answer => obeys_record ?_
          cases answer <;> exact ⟨rfl, candidate, hhit⟩
        · simp only [hl1]
          exact obeys_record ⟨rfl, candidate, hhit⟩

theorem restoreL1_obeys (hl1 : job.l1 = true) (candidate : ActionCandidate) (hready : Ready job none w l)
    (hvalid : l.validated = some candidate) : (restoreL1 candidate).Obeys ledger (fun l' result => match result with
      | .ok () => Hit job candidate l'
      | .error _ => Ready job none w l') l := by
  refine (restoreWith_obeys (fetches_readBlobs hl1 candidate) hready hvalid).bind fun l' result hl' => ?_
  cases result <;> exact hl'

/-- A validated candidate of the local store, after its use was recorded. -/
theorem tryL1Candidates_obeys (hl1 : job.l1 = true) (index : List ActionCandidate) {l : Ledger}
    (hready : Ready job none w l) : (tryL1Candidates job index).Obeys ledger (Tried job w) l := by
  induction index generalizing l with
  | nil => exact hready
  | cons candidate rest ih =>
    refine .ask_bind trivial fun answer => ?_
    cases answer with
    | error reason => exact obeys_record (ih (hready.validated none))
    | ok _ =>
      refine Obeys.bind (Q := fun l' _ => Ready job none w l' ∧ l'.validated = some candidate) ?_ fun l' _ hl' => ?_
      · unfold recordReuse
        split
        next hremote => exact ⟨hready.connected.trans hremote, fun _ => ⟨hready.validated _, rfl⟩⟩
        · exact ⟨hready.validated _, rfl⟩
      · refine (restoreL1_obeys hl1 candidate hl'.1 hl'.2).bind fun t result ht => ?_
        cases result with
        | error error => exact obeys_record (ih ht)
        | ok _ =>
          have hhit : Hit job candidate t := ht
          exact .ask_bind (hhit.opened hl1) fun _ => obeys_record ⟨rfl, candidate, hhit⟩

/-! ## Why there was no hit -/

theorem firstRefusal_obeys (index : List ActionCandidate) {l : Ledger} (hready : Ready job none w l) :
    (firstRefusal index).Obeys ledger (fun l' _ => Ready job none w l') l := by
  induction index generalizing l with
  | nil => exact hready
  | cons candidate rest ih =>
    refine .ask_bind trivial fun answer => ?_
    cases answer with
    | error reason => exact hready.validated none
    | ok _ => exact ih (hready.validated _)

theorem explainCache_obeys (cache : String) (index : List ActionCandidate) (hready : Ready job none w l) :
    (explainCache cache index).Obeys ledger (fun l' _ => Ready job none w l') l := by
  have hexplain : (explainCandidates index).Obeys ledger (fun l' _ => Ready job none w l') l := by
    unfold explainCandidates
    split
    · exact hready
    · exact (firstRefusal_obeys index hready).bind fun _ _ h => h
  unfold explainCache
  split
  · exact hready
  · exact hexplain.bind fun _ _ h => h

theorem missDetail_obeys (l1Disabled remoteAvailable : Bool) (hint : String) (localIndex index : List ActionCandidate)
    (hready : Ready job none w l) : (missDetail job l1Disabled remoteAvailable hint localIndex index).Obeys ledger
      (fun l' _ => Ready job none w l') l :=
  (explainCache_obeys _ _ hready).bind fun _ _ h => (explainCache_obeys _ _ h).bind fun _ _ h => h

/-! ## The lease -/

/-- What is in hand when the compile begins: the lease, or an excuse for
having none. -/
def Begins (job : Job) (token : Option Text) (l : Ledger) : Prop :=
  ∃ w, Ready job token w l ∧ (token.isSome = true ∨ job.remote = false ∨ w.Over)

/-- What a wait leaves: a hit, the lease in hand, or an excuse. -/
def Waited.Leaves (job : Job) (l : Ledger) : Waited → Prop
  | .hit status => status = success ∧ ∃ candidate, Hit job candidate l
  | .owned token => Begins job (some token) l
  | .neither => Begins job none l

theorem Ready.granted (h : Ready job none w l) (hremote : job.remote = true) (token : Text) :
    Begins job (some token) { l with lease := some (job.staticKey, token) } :=
  ⟨w, ⟨⟨h.connected, h.opened, rfl, fun _ => hremote, h.passed⟩, h.restored, h.run, h.scratch, h.patience⟩, .inl rfl⟩

/-- It is polled while there is a lease to wait for. -/
theorem tryPublished_obeys (hremote : job.remote = true) (checked : List Text) (hready : Ready job none w l)
    (hwaiting : w.waiting.isSome = true) :
    (tryPublished job checked).Obeys ledger (fun l' result => Tried job w l' result.2) l := by
  obtain rfl := hready.patience
  refine .ask_bind (hready.connected.trans hremote) fun answer => ?_
  cases answer with
  | error error =>
    refine hready.waits ?_
    rw [Option.isNone_eq_false_iff.2 hwaiting, Bool.or_false]
  | ok index =>
    refine (tryCandidates_obeys hremote _ hready).bind fun l' hit hl' => ?_
    cases hit with
    | none => exact hl'
    | some status => exact obeys_record hl'

/-- Each round of the wait finds nothing in hand, and leaves nothing there if
there is to be another. -/
theorem waitForOwner_obeys (hremote : job.remote = true) (wait : Wait) (elapsed : Nat) (checked : List Text)
    {w : Patience} {l : Ledger} (hready : Ready job none w l) (hwaiting : w.waiting = some wait.expiresMs)
    (hslept : w.slept = elapsed) (hmax : w.maxWait = wait.maxWait) :
    (waitForOwner job wait elapsed checked).Obeys ledger (Waited.Leaves job) l := by
  induction hleft : wait.maxWait - elapsed using Nat.strong_induction_on generalizing elapsed checked l w with
  | _ left ih =>
    obtain rfl := hready.patience
    have hsome : l.patience.waiting.isSome = true := by rw [hwaiting]; rfl
    rw [waitForOwner]
    split
    next hbefore =>
      refine .ask_bind trivial fun (now : Nat) => ?_
      split
      next hnow =>
        refine .ask_bind trivial fun (more : Nat) => ?_
        have hround : Ready job none
            ⟨l.patience.unanswered, l.patience.waiting, l.patience.maxWait, l.patience.slept + wait.pause + more,
              l.patience.waiting.any (· ≤ now)⟩
            (ledger.after (ledger.after l .nowMs now) (.sleep wait.pause) more) :=
          ⟨⟨hready.connected, hready.opened, hready.lease, hready.remote, hready.passed⟩, hready.restored, hready.run,
            hready.scratch, rfl⟩
        refine (tryPublished_obeys hremote checked hround hsome).bind fun l' result hl' => ?_
        obtain ⟨checked', hit⟩ := result
        cases hit with
        | some status => exact hl'
        | none =>
          have hready' : Ready job none _ l' := hl'
          refine .ask_bind ⟨hready'.connected.trans hremote, hready'.unsettled, hready'.lease⟩ fun answer => ?_
          rcases answer with error | ⟨token, expiresMs⟩ | ⟨retryAfterMs, expiresMs⟩
          · exact obeys_record ⟨_, hready'.waits rfl, .inr (.inr (.inl rfl))⟩
          · exact obeys_record (hready'.granted hremote token)
          · have hpause : 50 ≤ wait.pause := le_max_left _ _
            have hnext : Ready job none
                ⟨l.patience.unanswered, l.patience.waiting, l.patience.maxWait, l.patience.slept + wait.pause + more,
                  l.patience.waiting.any (· ≤ now)⟩
                (ledger.after l' (.acquire job.staticKey wait.request) (.ok (.wait retryAfterMs expiresMs))) := by
              refine hready'.waits ?_
              rw [hready'.patience, hwaiting, Option.some_or]
            exact ih _ (by omega) _ _ hnext hwaiting (by dsimp only; omega) hmax rfl
      next hnow =>
        refine obeys_record ⟨_, hready.waits rfl, .inr (.inr (.inr ⟨hsome, .inl ?_⟩))⟩
        show l.patience.waiting.any (· ≤ now) = true
        rw [hwaiting]
        simpa using hnow
    next hbefore =>
      exact obeys_record ⟨_, hready, .inr (.inr (.inr ⟨hsome, .inr (by omega)⟩))⟩

/-- How long may be waited is entered as it is used. -/
theorem maxWait_obeys (hready : Ready job none w l) :
    (maxWait job).Obeys ledger (fun l' duration => Ready job none { w with maxWait := duration } l') l := by
  obtain rfl := hready.patience
  refine .ask_bind trivial fun (value : Option String) => ?_
  cases hvalue : boundedTimeout "BELLOWS_MAX_WAIT_MS" value 30000 0 600000 with
  | ok duration =>
    refine hready.waits ?_
    rw [hvalue]
    rfl
  | error error =>
    refine obeys_record (hready.waits ?_)
    rw [hvalue]
    rfl

theorem takeLease_obeys (hremote : job.remote = true) (index : List ActionCandidate) (client : Text)
    (hready : Ready job none w l) (hwaiting : w.waiting = none) (hslept : w.slept = 0) :
    (takeLease job index client).Obeys ledger (Waited.Leaves job) l := by
  obtain rfl := hready.patience
  refine .ask_bind ⟨hready.connected.trans hremote, hready.unsettled, hready.lease⟩ fun answer => ?_
  rcases answer with error | ⟨token, expiresMs⟩ | ⟨retryAfterMs, expiresMs⟩
  · exact obeys_record ⟨_, hready.waits rfl, .inr (.inr (.inl rfl))⟩
  · exact hready.granted hremote token
  · have hwait : Ready job none { l.patience with waiting := some expiresMs }
        (ledger.after l (.acquire job.staticKey ⟨client, 120000⟩) (.ok (.wait retryAfterMs expiresMs))) := by
      refine hready.waits ?_
      rw [hwaiting, Option.none_or]
    refine obeys_record ((maxWait_obeys hwait).bind fun l' duration h => .ask_bind trivial fun (passed : Nat) => ?_)
    exact waitForOwner_obeys hremote _ _ _ (h.waits (v := { l.patience with
      waiting := some expiresMs, maxWait := duration, slept := passed }) (by rw [h.patience])) rfl rfl rfl

/-! ## Compiling -/

/-- rustc has run, with this status; what is to be stored was captured. -/
structure Compiled (job : Job) (token : Option Text) (status : ExitStatus) (stored : Option Stored) (l : Ledger) : Prop
    extends Holding job token l where
  restored : l.restored = none
  run : ∃ run, l.run = some run ∧ run.status = status
  stored : ∀ s, stored = some s → l.stored = some s

/-- What a compile leaves. -/
def CompileLeaves (job : Job) (token : Option Text) (l : Ledger) : Except String (ExitStatus × Option Stored) → Prop
  | .ok result => Compiled job token result.1 result.2 l
  | .error _ => Holding job token l ∧ l.restored = none

theorem Holding.ran (h : Holding job token l) (run : Option RustcRun) :
    Holding job token { l with run } := ⟨h.connected, h.opened, h.lease, h.remote, h.passed⟩

theorem Holding.captured (h : Holding job token l) (stored : Option Stored) :
    Holding job token { l with stored } := ⟨h.connected, h.opened, h.lease, h.remote, h.passed⟩

/-- A run is captured only if it began from scratch. -/
theorem keepLinked_obeys {reusedSession : Bool} (linkCommand : Option Text) {run : RustcRun}
    (hholding : Holding job token l) (hrestored : l.restored = none) (hreused : l.reused = reusedSession)
    (hrun : l.run = some run) (hsuccess : run.status.success = true) :
    (keepLinked job reusedSession run linkCommand).Obeys ledger (CompileLeaves job token) l := by
  have hnone : Compiled job token run.status none l := ⟨hholding, hrestored, ⟨run, hrun, rfl⟩, by simp⟩
  cases reusedSession with
  | true => exact obeys_record hnone
  | false =>
    refine .ask_bind ⟨hreused, hrun, hsuccess⟩ fun answer => ?_
    rcases answer with error | stored
    · cases error <;> exact obeys_record hnone
    · exact ⟨hholding.captured _, hrestored, ⟨run, hrun, rfl⟩, fun s hs => hs⟩

theorem keepRun_obeys {reusedSession : Bool} (linkRecord : Option Text) {run : RustcRun}
    (hholding : Holding job token l) (hrestored : l.restored = none) (hreused : l.reused = reusedSession)
    (hrun : l.run = some run) (hsuccess : run.status.success = true) :
    (keepRun job reusedSession linkRecord run).Obeys ledger (CompileLeaves job token) l := by
  cases linkRecord with
  | none => exact keepLinked_obeys none hholding hrestored hreused hrun hsuccess
  | some path =>
    refine .ask_bind trivial fun answer => ?_
    cases answer with
    | error error => exact ⟨hholding, hrestored⟩
    | ok command => exact keepLinked_obeys (some command) hholding hrestored hreused hrun hsuccess

theorem linkRecord_obeys :
    (linkRecord job).Obeys ledger (fun l' _ => l' = l) l := by
  unfold linkRecord
  split
  · refine .ask_bind trivial fun answer => ?_
    cases answer <;> rfl
  · rfl

theorem demoDelay_obeys : demoDelay.Obeys ledger (fun l' _ => l' = l) l := by
  refine .ask_bind trivial fun answer => ?_
  split
  · exact ⟨trivial, fun _ => rfl⟩
  · rfl

/-- Whether there is an earlier session is entered. -/
theorem reusesSession_obeys (hreused : l.reused = false) :
    (reusesSession job).Obeys ledger (fun l' reused => l' = { l with reused }) l := by
  unfold reusesSession
  split
  · exact ⟨trivial, fun _ => rfl⟩
  · show l = { l with reused := false }
    rw [← hreused]

theorem compileAndCapture_obeys (hbegins : Begins job token l) :
    (compileAndCapture job).Obeys ledger (CompileLeaves job token) l := by
  obtain ⟨w, hready, hexcused⟩ := hbegins
  refine demoDelay_obeys.bind fun l' _ hl' => ?_
  rw [hl']
  refine (reusesSession_obeys hready.scratch).bind fun t reusedSession ht => ?_
  have hready' : Holding job token t ∧ t.restored = none ∧ t.reused = reusedSession ∧
      t.Unsettled ∧ (t.lease.isSome = true ∨ t.connected = false ∨ t.patience.Over) := by
    rw [ht]
    refine ⟨⟨hready.connected, hready.opened, hready.lease, hready.remote, hready.passed⟩, hready.restored, rfl,
      ⟨hready.restored, hready.run, hready.passed⟩, ?_⟩
    rcases hexcused with htoken | hremote | hover
    · exact .inl (by rw [show l.lease = _ from hready.lease, Option.isSome_map, htoken])
    · exact .inr (.inl (hready.connected.trans hremote))
    · exact .inr (.inr (hready.patience ▸ hover))
  clear ht
  obtain ⟨hholding, hrestored, hreused, hmay⟩ := hready'
  refine .ask_bind trivial fun plan => ?_
  refine linkRecord_obeys.bind fun u record hu => ?_
  rw [hu]
  cases record with
  | error error => exact ⟨hholding, hrestored⟩
  | ok record =>
    refine .ask_bind hmay fun answer => ?_
    cases answer with
    | error error => exact ⟨hholding, hrestored⟩
    | ok run =>
      dsimp only
      split
      next hsuccess => exact keepRun_obeys record (hholding.ran _) hrestored hreused rfl hsuccess
      · exact ⟨hholding.ran _, hrestored, ⟨run, rfl, rfl⟩, by simp⟩

/-! ## Publishing -/

/-- The result may be stored; the lease is still in hand. -/
structure Storing (job : Job) (token : Option Text) (status : ExitStatus) (s : Stored) (l : Ledger) : Prop
    extends Compiled job token status (some s) l where
  mayStore : l.MayStore s

theorem Compiled.localBlobs {status : ExitStatus} {stored : Option Stored}
    (h : Compiled job token status stored l) (blobs : List BlobBytes) :
    Compiled job token status stored { l with localBlobs := blobs } :=
  ⟨h.toHolding.localBlobs blobs, h.restored, h.run, h.stored⟩

theorem Compiled.remoteBlobs {status : ExitStatus} {stored : Option Stored}
    (h : Compiled job token status stored l) (blobs : List BlobBytes) :
    Compiled job token status stored { l with remoteBlobs := blobs } :=
  ⟨⟨h.connected, h.opened, h.lease, h.remote, h.passed⟩, h.restored, h.run, h.stored⟩

section

variable {status : ExitStatus} {s : Stored}

/-- Each blob is in the local store, or the loop ends. -/
theorem putBlobs_obeys (hl1 : job.l1 = true) : ∀ (blobs : List BlobBytes) {l : Ledger}, (∀ blob ∈ blobs, blob ∈ s.blobs) →
    Storing job token status s l → (putBlobs blobs).Obeys ledger (fun l' result => Storing job token status s l' ∧
      (∀ blob ∈ l.localBlobs, blob ∈ l'.localBlobs) ∧ (result = .ok () → ∀ blob ∈ blobs, blob ∈ l'.localBlobs)) l
  | [], _, _, hs => ⟨hs, fun _ h => h, by simp⟩
  | blob :: rest, l, hblobs, hs => by
    obtain ⟨hblob, hrest⟩ := List.forall_mem_cons.1 hblobs
    refine .ask_bind ⟨hs.opened hl1, .inr ⟨s, hs.mayStore, hblob⟩⟩ fun answer => ?_
    cases answer with
    | error error => exact ⟨hs, fun _ h => h, by simp⟩
    | ok _ =>
      have hs' : Storing job token status s { l with localBlobs := blob :: l.localBlobs } :=
        ⟨hs.toCompiled.localBlobs _, hs.mayStore⟩
      refine (putBlobs_obeys hl1 rest hrest hs').mono fun l' result hl' => ?_
      obtain ⟨hs'', hkept, hall⟩ := hl'
      refine ⟨hs'', fun b hb => hkept b (List.mem_cons_of_mem _ hb), fun hok b hb => ?_⟩
      rcases List.mem_cons.1 hb with rfl | hb
      · exact hkept _ List.mem_cons_self
      · exact hall hok b hb

theorem storeLocally_obeys (hs : Storing job token status s l) :
    (storeLocally job s).Obeys ledger (fun l' _ => Storing job token status s l') l := by
  unfold storeLocally
  split
  next hl1 =>
    refine Obeys.bind (Q := fun l' _ => Storing job token status s l') ?_ fun l' result hl' => ?_
    · refine (putBlobs_obeys hl1 s.blobs (fun _ h => h) hs).bind fun l' result hl' => ?_
      obtain ⟨hs', -, hall⟩ := hl'
      cases result with
      | error error => exact hs'
      | ok _ =>
        refine ⟨⟨hs'.opened hl1, .inr ⟨s, hs'.mayStore, rfl, hall rfl⟩⟩, fun answer => ?_⟩
        cases answer <;> exact hs'
    · cases result with
      | error error => exact obeys_record hl'
      | ok _ => exact hl'
  · exact hs

/-- The server has every blob before it is given the candidate. -/
theorem publish_obeys (hremote : job.remote = true) (hs : Storing job token status s l) :
    (publish s).Obeys ledger (fun l' _ => Storing job token status s l') l := by
  refine .ask_bind trivial fun answer => ?_
  cases answer with
  | error error => exact hs
  | ok _ =>
    refine .ask_bind ⟨hs.connected.trans hremote, s, hs.mayStore, rfl⟩ fun answer => ?_
    cases answer with
    | error error => exact hs
    | ok _ =>
      have hs' : Storing job token status s { l with remoteBlobs := s.blobs ++ l.remoteBlobs } :=
        ⟨hs.toCompiled.remoteBlobs _, hs.mayStore⟩
      refine .ask_bind ⟨hs.connected.trans hremote, s, hs.mayStore, rfl, fun blob hblob => List.mem_append_left _ hblob⟩
        fun answer => ?_
      cases answer <;> exact hs'

theorem storeRemotely_obeys (hremote : job.remote = true) (hs : Storing job token status s l) :
    (storeRemotely job s).Obeys ledger (fun l' _ => Storing job token status s l') l := by
  refine (publish_obeys hremote hs).bind fun l' result hl' => ?_
  cases result with
  | ok actionKey => exact ⟨trivial, fun _ => hl'⟩
  | error error =>
    dsimp only
    split <;> exact ⟨trivial, fun _ => hl'⟩

theorem store_obeys (remoteAvailable : Bool) (hs : Storing job token status s l) :
    (store job remoteAvailable s).Obeys ledger (fun l' _ => Storing job token status s l') l := by
  refine (storeLocally_obeys hs).bind fun l' storedLocally hl' => ?_
  refine Obeys.bind (Q := fun t _ => Storing job token status s t) ?_ fun t _ ht => ?_
  · unfold recordStored
    split
    · exact ⟨trivial, fun _ => hl'⟩
    · exact hl'
  · split
    next hremote => exact storeRemotely_obeys (Bool.and_eq_true_iff.1 hremote).1 ht
    · exact ht

end

/-- A client that may only read stores nothing. -/
theorem storeCaptured_obeys {status : ExitStatus} {stored : Option Stored} (remoteAvailable : Bool)
    (h : Compiled job token status stored l) :
    (storeCaptured job remoteAvailable stored).Obeys ledger (fun l' _ => Compiled job token status stored l') l := by
  cases stored with
  | none => exact h
  | some s =>
    refine .ask_bind trivial fun (value : Option String) => ?_
    have hafter : Compiled job token status (some s) { l with readOnly := value == some "1" } :=
      ⟨⟨h.connected, h.opened, h.lease, h.remote, h.passed⟩, h.restored, h.run, h.stored⟩
    by_cases hvalue : (value == some "1") = true
    · simp only [hvalue, if_true]
      exact hafter
    · have hs : Storing job token status s { l with readOnly := value == some "1" } :=
        ⟨hafter, h.stored s rfl, by simpa using hvalue⟩
      simp only [hvalue]
      exact (store_obeys remoteAvailable hs).mono fun _ _ ht => ht.toCompiled

theorem releaseToken_obeys (h : Holding job token l) :
    (releaseToken job token).Obeys ledger (fun l' _ => l' = { l with lease := none }) l := by
  cases token with
  | none =>
    show l = { l with lease := none }
    rw [← show l.lease = none from h.lease]
  | some token =>
    have hremote : job.remote = true := h.remote rfl
    simp only [releaseToken, hremote, if_true]
    exact ⟨⟨h.connected.trans hremote, h.lease⟩, fun _ => rfl⟩

/-! ## The whole of it -/

/-- A result is accounted for; after an error official rustc may be asked. -/
def Ended (l : Ledger) : Except String ExitStatus → Prop
  | .ok status => Settled l (.ok status)
  | .error _ => l.restored = none ∧ l.lease = none ∧ ∀ status, l.passed ≠ some (.ok status)

theorem compileUnder_obeys (remoteAvailable : Bool) (hbegins : Begins job token l) :
    (compileUnder job remoteAvailable token).Obeys ledger Ended l := by
  have hreleased : ∀ (status : ExitStatus) (stored : Option Stored) (t : Ledger), Compiled job token status stored t →
      (do releaseToken job token; return .ok status : Asking (Except String ExitStatus)).Obeys ledger Ended t := by
    intro status stored t ht
    refine (releaseToken_obeys ht.toHolding).bind fun u _ hu => ?_
    rw [hu]
    refine ⟨rfl, fun status' hstatus => ?_, fun error herror => by cases herror⟩
    cases hstatus
    exact .inr (.inl ⟨ht.restored, ht.run⟩)
  refine (compileAndCapture_obeys hbegins).bind fun l' result hl' => ?_
  cases result with
  | error error =>
    obtain ⟨hholding, hrestored⟩ := hl'
    refine (releaseToken_obeys hholding).bind fun t _ ht => ?_
    rw [ht]
    refine ⟨hrestored, rfl, fun status hpassed => ?_⟩
    rw [show l'.passed = none from hholding.passed] at hpassed
    cases hpassed
  | ok result =>
    obtain ⟨status, stored⟩ := result
    have hcompiled : Compiled job token status stored l' := hl'
    dsimp only
    split
    · exact (storeCaptured_obeys remoteAvailable hcompiled).bind fun t _ ht => hreleased status stored t ht
    · exact hreleased status stored l' hcompiled

/-- Nobody has been waited for; the server has listed its candidates, or need
not be waited for. -/
def Unwaited (job : Job) (remoteAvailable : Bool) (l : Ledger) : Prop :=
  ∃ w, Ready job none w l ∧ w.waiting = none ∧ w.slept = 0 ∧ (remoteAvailable = true ∨ job.remote = false ∨ w.Over)

theorem leaseFor_obeys {remoteAvailable : Bool} (index : List ActionCandidate) (client : Text)
    (h : Unwaited job remoteAvailable l) :
    (leaseFor job remoteAvailable index client).Obeys ledger (Waited.Leaves job) l := by
  obtain ⟨w, hready, hwaiting, hslept, hexcused⟩ := h
  unfold leaseFor
  split
  next hremote => exact takeLease_obeys (Bool.and_eq_true_iff.1 hremote).1 index client hready hwaiting hslept
  next hremote =>
    refine ⟨w, hready, .inr (hexcused.elim (fun havailable => .inl ?_) id)⟩
    simpa [havailable] using hremote

theorem compileCold_obeys {remoteAvailable : Bool} (index : List ActionCandidate) (h : Unwaited job remoteAvailable l) :
    (compileCold job remoteAvailable index).Obeys ledger Ended l := by
  refine .ask_bind trivial fun (pid : Nat) => .ask_bind trivial fun (now : Nat) => ?_
  have hsame : Unwaited job remoteAvailable (ledger.after (ledger.after l .pid pid) .nowMs now) := by
    obtain ⟨w, hready, hwaiting, hslept, hexcused⟩ := h
    obtain rfl := hready.patience
    refine ⟨_, hready.waits rfl, hwaiting, hslept, hexcused.imp_right (Or.imp_right ?_)⟩
    rintro (hunanswered | ⟨hsome, -⟩)
    · exact .inl hunanswered
    · rw [hwaiting] at hsome
      cases hsome
  refine (leaseFor_obeys index _ hsame).bind fun l' waited hl' => ?_
  cases waited with
  | hit status =>
    obtain ⟨rfl, candidate, hhit⟩ := hl'
    exact hhit.settled
  | owned token => exact compileUnder_obeys remoteAvailable hl'
  | neither => exact compileUnder_obeys remoteAvailable hl'

theorem remoteIndex_obeys (hready : Ready job none .start l) :
    (remoteIndex job).Obeys ledger (fun l' result => Unwaited job result.2 l') l := by
  unfold remoteIndex
  split
  next hremote =>
    refine .ask_bind (hready.connected.trans hremote) fun answer => ?_
    cases answer with
    | ok index => exact ⟨_, hready, rfl, rfl, .inl rfl⟩
    | error error =>
      refine obeys_record ⟨{ Patience.start with unanswered := true }, hready.waits ?_, rfl, rfl, .inr (.inr (.inl rfl))⟩
      rw [hready.patience]
      rfl
  next hremote => exact ⟨_, hready, rfl, rfl, .inr (.inl (by simpa using hremote))⟩

theorem tryRemote_obeys (l1Disabled : Bool) (hint : String) (localIndex : List ActionCandidate)
    (hready : Ready job none .start l) : (tryRemote job l1Disabled hint localIndex).Obeys ledger Ended l := by
  refine (remoteIndex_obeys hready).bind fun l' result hl' => ?_
  obtain ⟨index, remoteAvailable⟩ := result
  obtain ⟨w, hready', hunwaited⟩ := hl'
  refine Obeys.bind (Q := Tried job w) ?_ fun t hit ht => ?_
  · unfold tryRemoteCandidates
    split
    next hremote => exact tryCandidates_obeys hremote index hready'
    · exact hready'
  cases hit with
  | some status =>
    obtain ⟨rfl, candidate, hhit⟩ := ht
    exact hhit.settled
  | none =>
    refine (missDetail_obeys _ _ _ _ _ ht).bind fun u detail hu => ?_
    exact obeys_record (compileCold_obeys _ ⟨w, hu, hunwaited⟩)

theorem tryL1_obeys (hready : Ready job none w l) :
    (tryL1 job).Obeys ledger (fun l' result => Tried job w l' result.2) l := by
  unfold tryL1
  split
  next hl1 =>
    refine .ask_bind (hready.opened hl1) fun answer => ?_
    cases answer with
    | ok index => exact (tryL1Candidates_obeys hl1 index hready).bind fun _ _ h => h
    | error error => exact obeys_record hready
  · exact hready

/-- Nothing has been done yet. -/
structure Fresh (l : Ledger) : Prop extends l.Unsettled where
  lease : l.lease = none
  scratch : l.reused = false
  patience : l.patience = .start

theorem Fresh.ready {job : Job} (h : Fresh l) (hconnected : l.connected = job.remote)
    (hopened : job.l1 = true → l.opened = true) : Ready job none .start l :=
  ⟨⟨hconnected, hopened, h.lease, fun hsome => by simp at hsome, h.passed⟩, h.restored, h.run, h.scratch, h.patience⟩

theorem Fresh.ended (h : Fresh l) (error : String) : Ended l (.error error) :=
  ⟨h.restored, h.lease, fun status hpassed => by rw [h.passed] at hpassed; cases hpassed⟩

/-- Official rustc's own result. -/
theorem passthrough_obeys (raw : List OsText)
    (h : l.restored = none ∧ l.lease = none ∧ ∀ status, l.passed ≠ some (.ok status)) :
    (passthrough raw).Obeys ledger (fun l' result => Settled l' result ∧ Ended l' result) l := by
  refine ⟨h, fun result => ?_⟩
  have hsettled : Settled { l with passed := some result } result :=
    ⟨h.2.1, fun status hstatus => .inr (.inr (by rw [hstatus])), fun error herror => by rw [herror]⟩
  refine ⟨hsettled, ?_⟩
  cases result with
  | ok status => exact hsettled
  | error error => exact ⟨h.1, h.2.1, fun status hpassed => by cases hpassed⟩

theorem connectRemote_obeys {localOnly : Bool} (h : Fresh l) (hlocal : l.localOnly = localOnly)
    (hconnected : l.connected = false) : (connectRemote localOnly).Obeys ledger
      (fun l' result => Fresh l' ∧ ∀ remote, result = .ok remote → l'.connected = remote) l := by
  cases localOnly with
  | true => exact ⟨h, fun remote hok => by cases hok; exact hconnected⟩
  | false =>
    refine .ask_bind trivial fun server => .ask_bind trivial fun token => .ask_bind hlocal fun answer => ?_
    cases answer with
    | ok _ =>
      exact ⟨⟨⟨h.restored, h.run, h.passed⟩, h.lease, h.scratch, h.patience⟩, fun remote hok => by cases hok; rfl⟩
    | error error => exact ⟨h, fun remote hok => by cases hok⟩

theorem openL1_obeys {unopened : Job} (localOnly l1Disabled : Bool) (h : Fresh l) :
    (openL1 unopened localOnly l1Disabled).Obeys ledger
      (fun l' opened => Fresh l' ∧ l'.connected = l.connected ∧ (opened = true → l'.opened = true)) l := by
  unfold openL1
  split
  · exact ⟨h, rfl, fun ht => by cases ht⟩
  · refine .ask_bind trivial fun answer => ?_
    cases answer with
    | ok _ => exact ⟨⟨⟨h.restored, h.run, h.passed⟩, h.lease, h.scratch, h.patience⟩, rfl, fun _ => rfl⟩
    | error error => exact obeys_record ⟨h, rfl, fun ht => by cases ht⟩

theorem identityHint_obeys : identityHint.Obeys ledger (fun l' _ => l' = l) l := by
  refine .ask_bind trivial fun answer => ?_
  cases answer <;> rfl

theorem cacheIdentified_obeys (raw : List OsText) {localOnly : Bool} (invocation : Analysis) (identity : BuildIdentity)
    (h : Fresh l) (hlocal : l.localOnly = localOnly) (hconnected : l.connected = false) :
    (cacheIdentified raw localOnly invocation identity).Obeys ledger Ended l := by
  refine (connectRemote_obeys h hlocal hconnected).bind fun l' result hl' => ?_
  obtain ⟨hfresh, hremote⟩ := hl'
  cases result with
  | error error =>
    exact obeys_record ((passthrough_obeys raw (hfresh.ended error)).mono fun _ _ ht => ht.2)
  | ok remote =>
    refine .ask_bind trivial fun value => (openL1_obeys _ _ hfresh).bind fun t l1 ht => ?_
    obtain ⟨hfresh', hsame, hopened⟩ := ht
    refine identityHint_obeys.bind fun u hint hu => ?_
    rw [hu]
    have hready : Ready ⟨invocation, identity, remote, l1⟩ none .start t :=
      hfresh'.ready (hsame.trans (hremote remote rfl)) hopened
    refine (tryL1_obeys hready).bind fun v result hv => ?_
    obtain ⟨localIndex, hit⟩ := result
    cases hit with
    | some status =>
      obtain ⟨rfl, candidate, hhit⟩ := hv
      exact hhit.settled
    | none => exact tryRemote_obeys _ _ _ hv

theorem cacheOrCompile_obeys (raw : List OsText) (h : Fresh l) (hconnected : l.connected = false) :
    (cacheOrCompile raw).Obeys ledger Ended l := by
  refine .ask_bind trivial fun (value : Option String) => ?_
  have hfresh : Fresh { l with localOnly := value == some "1" } :=
    ⟨⟨h.restored, h.run, h.passed⟩, h.lease, h.scratch, h.patience⟩
  refine .ask_bind trivial fun answer => ?_
  cases answer with
  | error reason =>
    exact ⟨trivial, fun _ => (passthrough_obeys raw (hfresh.ended reason)).mono fun _ _ ht => ht.2⟩
  | ok invocation =>
    refine .ask_bind trivial fun answer => ?_
    cases answer with
    | error error =>
      exact ⟨trivial, fun _ => (passthrough_obeys raw (hfresh.ended error)).mono fun _ _ ht => ht.2⟩
    | ok identity => exact cacheIdentified_obeys raw invocation identity hfresh rfl hconnected

theorem removeOldLauncher_obeys (host : Naming) (raw : List OsText) :
    (removeOldLauncher host raw).Obeys ledger (fun l' _ => l' = l) l := by
  unfold removeOldLauncher
  split
  · exact ⟨trivial, fun _ => rfl⟩
  · rfl

theorem installNewLauncher_obeys (host : Naming) (raw : List OsText) :
    (installNewLauncher host raw).Obeys ledger (fun l' _ => l' = l) l := by
  unfold installNewLauncher
  split
  · rfl
  · refine .ask_bind trivial fun (there : Bool) => ?_
    cases there with
    | false => rfl
    | true =>
      refine .ask_bind trivial fun answer => ?_
      cases answer with
      | ok _ => rfl
      | error error => exact ⟨trivial, fun _ => rfl⟩

theorem installAfter_obeys (host : Naming) (raw : List OsText) (result : Except String ExitStatus) :
    (installAfter host raw result).Obeys ledger (fun l' _ => l' = l) l := by
  cases result with
  | error error => rfl
  | ok status =>
    dsimp only [installAfter]
    split
    · exact installNewLauncher_obeys host raw
    · rfl

theorem orPassthrough_obeys (raw : List OsText) {result : Except String ExitStatus} (h : Ended l result) :
    (orPassthrough raw result).Obeys ledger Settled l := by
  cases result with
  | ok status => exact h
  | error error => exact ⟨trivial, fun _ => (passthrough_obeys raw h).mono fun _ _ ht => ht.1⟩

theorem rustcWrapper_obeys (host : Naming) (raw : List OsText) :
    (rustcWrapper host raw).Obeys ledger Settled .start := by
  refine (removeOldLauncher_obeys host raw).bind fun l' _ hl' => ?_
  rw [hl']
  refine (cacheOrCompile_obeys raw ⟨⟨rfl, rfl, rfl⟩, rfl, rfl, rfl⟩ rfl).bind fun t result ht => ?_
  refine (orPassthrough_obeys raw ht).bind fun u result hu => ?_
  refine (installAfter_obeys host raw result).bind fun v _ hv => ?_
  rw [hv]
  exact ⟨trivial, fun _ => hu⟩

/-! ## Grants and releases -/

/-- The lease that an exchange grants, and the one that it releases. -/
def grantOf : Exchange Answer → Option (Text × Text)
  | ⟨.acquire staticKey _, .ok (.owned token _)⟩ => some (staticKey, token)
  | _ => none

def releaseOf : Exchange Answer → Option (Text × Text)
  | ⟨.release staticKey token, _⟩ => some (staticKey, token)
  | _ => none

/-- A lease is granted to empty hands, and it is the one in hand that is
released. -/
theorem enter_lease (l : Ledger) (e : Exchange Answer) (h : Permits l e.call) :
    l.lease.toList ++ (grantOf e).toList = (releaseOf e).toList ++ (l.enter e.call e.answer).lease.toList := by
  obtain ⟨c, answer⟩ := e
  have hkept : ∀ l' : Ledger, l'.lease = l.lease → grantOf ⟨c, answer⟩ = none → releaseOf ⟨c, answer⟩ = none →
      l.lease.toList ++ (grantOf ⟨c, answer⟩).toList = (releaseOf ⟨c, answer⟩).toList ++ l'.lease.toList := by
    intro l' hlease hgrant hrelease
    rw [hlease, hgrant, hrelease, Option.toList_none, List.append_nil, List.nil_append]
  cases c with
  | acquire staticKey request =>
    rcases answer with error | ⟨token, expiresMs⟩ | ⟨retryAfterMs, expiresMs⟩
    · exact hkept _ rfl rfl rfl
    · show l.lease.toList ++ [(staticKey, token)] = [(staticKey, token)]
      rw [h.2.2, Option.toList_none, List.nil_append]
    · exact hkept _ rfl rfl rfl
  | release staticKey token =>
    show l.lease.toList ++ [] = [(staticKey, token)]
    rw [h.2, Option.toList_some, List.append_nil]
  | var name =>
    refine hkept _ ?_ rfl rfl
    dsimp only [Ledger.enter]
    split_ifs <;> rfl
  | connect | openStore | validate | remoteBlobs | install | remoteCandidates | rustc | capture | putBlob
    | remotePutBlobs => cases answer <;> exact hkept _ rfl rfl rfl
  | _ => exact hkept _ rfl rfl rfl

/-- What was granted was released, but for what is in hand. -/
theorem granted_eq {history : List (Exchange Answer)} {l : Ledger}
    (h : ∀ before e after, history = before ++ e :: after → Permits (ledger.sees l before) e.call) :
    l.lease.toList ++ history.filterMap grantOf =
      history.filterMap releaseOf ++ (ledger.sees l history).lease.toList := by
  induction history generalizing l with
  | nil => simp
  | cons e history ih =>
    have hfirst := enter_lease l e (h [] e history rfl)
    have hrest := ih (l := l.enter e.call e.answer) fun before e' after he => h (e :: before) e' after (by rw [he]; rfl)
    have hcons : ∀ f : Exchange Answer → Option (Text × Text),
        (e :: history).filterMap f = (f e).toList ++ history.filterMap f := fun f => by cases hf : f e <;> simp [hf]
    calc l.lease.toList ++ (e :: history).filterMap grantOf
        = (releaseOf e).toList ++ (l.enter e.call e.answer).lease.toList ++ history.filterMap grantOf := by
          rw [hcons, ← List.append_assoc, hfirst]
      _ = (e :: history).filterMap releaseOf ++ (ledger.sees l (e :: history)).lease.toList := by
          rw [hcons, List.append_assoc, hrest, List.append_assoc]
          rfl

/-- What a wrapper may be relied on for. -/
structure Disciplined (p : Asking (Except String ExitStatus)) : Prop where
  /-- Every call is one that what was answered so far permits. -/
  permitted : ∀ before e after q, Takes p (before ++ e :: after) q → Permits (ledger.sees .start before) e.call
  /-- A lease that was granted is in hand until it is released. -/
  leases : ∀ history q, Takes p history q → history.filterMap grantOf =
    history.filterMap releaseOf ++ (ledger.sees .start history).lease.toList
  /-- In the end every lease was released, and the result is accounted for. -/
  settled : ∀ history result, Takes p history (.done result) →
    Settled (ledger.sees .start history) result ∧ history.filterMap grantOf = history.filterMap releaseOf

end Bellows.Cli.Wrapper
