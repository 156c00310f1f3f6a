/-
What a step of a job can do (`JobStep`): one job moves, no collection does; no
intact blob goes but one that a put takes for a corrupt one, the journal only
grows, and a record that is new is the one the job published, under the
mutation lock.
-/
import Bellows.Collect.System
import Bellows.Core.StoreFacts

namespace Bellows.Collect

open Bellows.Core

/-! ## Jobs and their locks -/

namespace Job

/-- Holding the mutation lock between two steps. -/
def Mutating : Job → Prop
  | .replacing _ _ _ _ | .announcing _ _ _ => True
  | _ => False

/-- Holding the `writes` lock. -/
def Locked : Job → Prop
  | .checking _ _ | .announcing true _ _ => True
  | _ => False

/-- A server puts no candidate that it has not checked. -/
def ServedGoal (serialize : Bool) : Option Record → Prop
  | some (.candidate _) => serialize = false
  | _ => True

/-- Of those a server, or a wrapper, runs. -/
def Served (serialize : Bool) : Job → Prop
  | .storing _ goal | .replacing _ _ _ goal => ServedGoal serialize goal
  | .checking _ _ | .executing _ _ _ => serialize = true
  | _ => True

end Job

/-- What a job's step does to a lock: nothing, or it takes it, or gives it back. -/
def LockMoves (id : Nat) (before after : Option Holder) : Prop :=
  after = before ∨ before = none ∧ after = some (.job id) ∨ before = some (.job id) ∧ after = none

theorem LockMoves.other {id : Nat} {before after : Option Holder} (h : LockMoves id before after) {holder : Holder}
    (hne : holder ≠ .job id) (hb : before = some holder) : after = some holder := by
  rcases h with rfl | ⟨rfl, -⟩ | ⟨rfl, -⟩
  · exact hb
  · cases hb
  · exact absurd (Option.some.inj hb).symm hne

theorem LockMoves.release (id : Nat) (before : Option Holder) :
    LockMoves id before (if before = some (.job id) then none else before) := by
  split
  · next h => exact .inr (.inr ⟨h, rfl⟩)
  · exact .inl rfl

/-- A job that needs a lock has it. -/
structure State.HoldsLocks (s : State) (id : Nat) : Prop where
  mutation : (s.jobs id).Mutating → s.mutation = some (.job id)
  writes : (s.jobs id).Locked → s.writes = some (.job id)

/-- The journal only grows. -/
structure Follows (s t : Store) : Prop where
  generation : t.journal.generation = s.journal.generation
  lines : s.journal.lines <+: t.journal.lines

/-- The same, and no intact blob goes. -/
structure Grows (s t : Store) : Prop extends Follows s t where
  blobs : ∀ d, s.hasBlob d = true → t.hasBlob d = true

theorem Grows.of_eq {s t : Store} (hb : t.blobs = s.blobs) (hj : t.journal = s.journal) : Grows s t :=
  ⟨⟨by rw [hj], by rw [hj]⟩, fun d hd => by rw [Store.hasBlob, hb]; exact hd⟩

/-- What is appended next begins a line. -/
def Whole (s : Store) : Prop := s.journal.file.unfinished = none

theorem Whole.of_eq {s t : Store} (hj : t.journal = s.journal) (h : Whole s) : Whole t := by rwa [Whole, hj]

/-- The store after a step that publishes nothing. -/
structure Quiet (s t : Store) : Prop extends Grows s t where
  holds : ∀ r, t.Holds r → s.Holds r
  whole : Whole s → Whole t

theorem Quiet.refl (s : Store) : Quiet s s := ⟨.of_eq rfl rfl, fun _ => id, id⟩

theorem Quiet.of_shrinks {s t : Store} (h : s.Shrinks t) : Quiet s t :=
  ⟨.of_eq h.blobs h.journal, h.holds, .of_eq h.journal⟩

theorem Quiet.touch (s : Store) (digest : Text) (now : Nat) : Quiet s ((s.touchBlob digest now).getD s) :=
  ⟨⟨⟨by rw [Store.journal_touchBlob], by rw [Store.journal_touchBlob]⟩,
    fun d hd => by rw [Store.hasBlob_touchBlob]; exact hd⟩,
    fun r hr => by rwa [Store.Holds, Store.recordsAt_touchBlob] at hr, .of_eq (Store.journal_touchBlob digest now)⟩

theorem Quiet.place (s : Store) (digest : Text) (bytes now : Nat) : Quiet s (s.placeBlob digest bytes now) :=
  ⟨⟨⟨rfl, List.prefix_refl _⟩, fun _ hd => Store.hasBlob_placeBlob digest bytes now hd⟩, fun _ => id, id⟩

theorem Quiet.opened (s : Store) : Quiet s { s with journal := s.journal.opened } :=
  ⟨⟨⟨rfl, List.prefix_refl _⟩, fun _ => id⟩, fun _ => id, id⟩

/-! ### Writing to the journal -/

theorem file_write (j : Journal) (handle : Nat) (f : JournalFile → JournalFile) :
    (j.write handle f).file = if handle = j.generation then f j.file else j.file := by
  unfold Journal.write
  split <;> rfl

theorem Grows.write {f : JournalFile → JournalFile} (hf : ∀ file : JournalFile, file.lines <+: (f file).lines) (s : Store)
    (handle : Nat) : Grows s { s with journal := s.journal.write handle f } where
  blobs := fun _ => id
  generation := by
    unfold Journal.write
    split <;> rfl
  lines := by
    show s.journal.lines <+: (s.journal.write handle f).file.lines
    rw [file_write]
    split
    · exact hf s.journal.file
    · exact List.prefix_refl _

theorem prefix_append (file : JournalFile) (use : Use) : file.lines <+: (file.append use).lines := by
  unfold JournalFile.append
  split
  · exact List.prefix_append _ _
  · exact List.prefix_refl _

theorem Quiet.append (s : Store) (handle : Nat) (use : Use) :
    Quiet s { s with journal := s.journal.append handle use } := by
  refine ⟨.write (fun file => prefix_append file use) s handle, fun _ => id, fun hwhole => ?_⟩
  show (s.journal.write handle (·.append use)).file.unfinished = none
  rw [file_write]
  split
  · rw [JournalFile.append, hwhole]
  · exact hwhole

/-- A line that begins in `journal.log` is read there. -/
theorem lines_append {j : Journal} (hwhole : j.file.unfinished = none) (use : Use) :
    (j.append j.generation use).lines = j.lines ++ [use] := by
  show (j.write j.generation (·.append use)).file.lines = _
  rw [file_write, if_pos rfl, JournalFile.append, hwhole]
  rfl

/-! ## Steps of a job -/

/-- The record a job puts next, if it is that far. -/
def Job.publishing : Job → Option Record
  | .storing [] goal => goal
  | .checking [] goal => some goal
  | _ => none

/-- A put that writes its record; a candidate's use is in the journal next. -/
structure Publishes (cfg : Config) (s t : State) (id : Nat) (r : Record) : Prop where
  goal : (s.jobs id).publishing = some r
  unlocked : s.mutation = none
  admits : s.store.admits cfg.validators r = true
  blobs : t.store.blobs = s.store.blobs
  announces : ∀ c, r = .candidate c → ∃ locked, t.jobs id = .announcing locked c none

/-- What a candidate's job does with the journal: it opens it, then appends. -/
structure Announces (s t : State) (id : Nat) (locked : Bool) (c : ActionCandidate) (handle : Option Nat) : Prop where
  opens : handle = none → t.jobs id = .announcing locked c (some t.store.journal.generation)
  appends : handle = some s.store.journal.generation → Whole s.store →
    ∃ use, t.store.journal.lines = s.store.journal.lines ++ [use] ∧
      use.staticKey = c.staticKey ∧ use.actionKey = c.actionKey

/-- The job's put takes an intact copy of the blob for a corrupt one. -/
def State.Misreads (s : State) (event : Event) (id : Nat) (d : Text) : Prop :=
  event = .misread id ∧ ∃ bytes left goal, s.jobs id = .storing ((d, bytes) :: left) goal

structure JobStep (cfg : Config) (s : State) (event : Event) (t : State) (id : Nat) : Prop
    extends Follows s.store t.store where
  blobs : ∀ d, s.store.hasBlob d = true → t.store.hasBlob d = true ∨ s.Misreads event id d
  collectors : t.collectors = s.collectors
  others : ∀ other, other ≠ id → t.jobs other = s.jobs other
  holds : ∀ r, t.store.Holds r → s.store.Holds r ∨ (∃ now, event = .proceed id now) ∧ Publishes cfg s t id r
  mutation : LockMoves id s.mutation t.mutation
  writes : LockMoves id s.writes t.writes
  locks : s.HoldsLocks id → t.HoldsLocks id
  served : (s.jobs id).Served cfg.serialize → (t.jobs id).Served cfg.serialize
  checked : ∀ left goal, t.jobs id = .checking left goal → s.jobs id = .idle ∧ left = blobsToCheck goal ∨
    ∃ digest len, s.jobs id = .checking ((digest, len) :: left) goal ∧ s.store.hasBlob digest = true
  announces : ∀ locked c handle, s.jobs id = .announcing locked c handle →
    Announces s t id locked c handle ∨ event = .giveUp id ∨ ∃ told, event = .cutShort id told
  whole : Whole s.store → Whole t.store ∨ ∃ told, event = .cutShort id told

namespace JobStep

variable {cfg : Config} {s : State} {event : Event} {id : Nat}

/-- A step that takes no lock and gives none back. -/
theorem of_quiet {store : Store} (hq : Quiet s.store store) {job : Job}
    (hm : job.Mutating → (s.jobs id).Mutating) (hl : job.Locked → (s.jobs id).Locked)
    (hserved : (s.jobs id).Served cfg.serialize → job.Served cfg.serialize)
    (hc : ∀ left goal, job = .checking left goal →
      ∃ digest len, s.jobs id = .checking ((digest, len) :: left) goal ∧ s.store.hasBlob digest = true)
    (ha : ∀ locked c handle, s.jobs id = .announcing locked c handle →
      handle = none ∧ job = .announcing locked c (some s.store.journal.generation)) :
    JobStep cfg s event { s.setJob id job with store := store } id where
  collectors := rfl
  others := fun other hne => Function.update_of_ne hne _ _
  toFollows := hq.toFollows
  blobs := fun d hd => .inl (hq.blobs d hd)
  holds := fun r hr => .inl (hq.holds r hr)
  mutation := .inl rfl
  writes := .inl rfl
  locks := fun h => by
    constructor
    · intro hj
      simp only [State.setJob, Function.update_self] at hj
      exact h.mutation (hm hj)
    · intro hj
      simp only [State.setJob, Function.update_self] at hj
      exact h.writes (hl hj)
  served := by simpa only [State.setJob, Function.update_self] using hserved
  checked := fun left goal hj => by
    simp only [State.setJob, Function.update_self] at hj
    exact .inr (hc left goal hj)
  announces := fun locked c handle hj => by
    obtain ⟨rfl, hjob⟩ := ha locked c handle hj
    refine .inl ⟨fun _ => ?_, fun hh => by cases hh⟩
    simp only [State.setJob, Function.update_self, hjob, hq.generation]
  whole := fun hw => .inl (hq.whole hw)

/-- The end of a job. -/
theorem of_finish {store : Store} (hg : Grows s.store store) (hh : ∀ r, store.Holds r → s.store.Holds r)
    (ha : ∀ locked c handle, s.jobs id = .announcing locked c handle →
      (handle ≠ none ∧ (handle = some s.store.journal.generation → Whole s.store →
        ∃ use, store.journal.lines = s.store.journal.lines ++ [use] ∧
          use.staticKey = c.staticKey ∧ use.actionKey = c.actionKey)) ∨
        event = .giveUp id ∨ ∃ told, event = .cutShort id told)
    (hw : Whole s.store → Whole store ∨ ∃ told, event = .cutShort id told) :
    JobStep cfg s event { s.finish id with store := store } id where
  collectors := rfl
  others := fun other hne => Function.update_of_ne hne _ _
  toFollows := hg.toFollows
  blobs := fun d hd => .inl (hg.blobs d hd)
  holds := fun r hr => .inl (hh r hr)
  mutation := LockMoves.release id s.mutation
  writes := LockMoves.release id s.writes
  locks := fun _ => by
    constructor
    all_goals
      intro hj
      simp only [State.finish, State.release, State.setJob, Function.update_self] at hj
      exact hj.elim
  served := fun _ => by simp only [State.finish, State.release, State.setJob, Function.update_self, Job.Served]
  checked := fun left goal hj => by
    simp only [State.finish, State.release, State.setJob, Function.update_self] at hj
    cases hj
  announces := fun locked c handle hj =>
    (ha locked c handle hj).imp_left fun h => ⟨fun hh => absurd hh h.1, h.2⟩
  whole := hw

/-- A job that announces nothing ends. -/
theorem finish (hn : ∀ locked c handle, s.jobs id ≠ .announcing locked c handle) {store : Store}
    (hq : Quiet s.store store) : JobStep cfg s event { s.finish id with store := store } id :=
  of_finish hq.toGrows hq.holds (fun locked c handle hj => absurd hj (hn locked c handle)) fun hw => .inl (hq.whole hw)

/-- Nothing happens to the job. -/
theorem refused (hidle : s.jobs id = .idle) {store : Store} (hq : Quiet s.store store) :
    JobStep cfg s event { s with store := store } id where
  collectors := rfl
  others := fun _ _ => rfl
  toFollows := hq.toFollows
  blobs := fun d hd => .inl (hq.blobs d hd)
  holds := fun r hr => .inl (hq.holds r hr)
  mutation := .inl rfl
  writes := .inl rfl
  locks := fun h => ⟨h.mutation, h.writes⟩
  served := fun h => h
  checked := fun left goal hj => by cases hidle.symm.trans hj
  announces := fun locked c handle hj => by cases hidle.symm.trans hj
  whole := fun hw => .inl (hq.whole hw)

/-- A request enters. -/
theorem enters (hidle : s.jobs id = .idle) {job : Job} (hm : ¬ job.Mutating) (hl : ¬ job.Locked)
    (hs : job.Served cfg.serialize) : JobStep cfg s event (s.setJob id job) id :=
  of_quiet (Quiet.refl s.store) (fun h => absurd h hm) (fun h => absurd h hl) (fun _ => hs)
    (fun left goal hj => by subst hj; exact absurd trivial hl)
    (fun locked c handle hj => by cases hidle.symm.trans hj)

/-- Any step of a job that announces nothing yet. -/
theorem of_moves {t : State} (job : Job) (hf : Follows s.store t.store)
    (hb : ∀ d, s.store.hasBlob d = true → t.store.hasBlob d = true ∨ s.Misreads event id d)
    (hwhole : Whole s.store → Whole t.store)
    (hh : ∀ r, t.store.Holds r → s.store.Holds r ∨ (∃ now, event = .proceed id now) ∧ Publishes cfg s t id r)
    (hcol : t.collectors = s.collectors) (hjobs : t.jobs = Function.update s.jobs id job)
    (hmut : LockMoves id s.mutation t.mutation) (hwr : LockMoves id s.writes t.writes)
    (hm : job.Mutating → t.mutation = some (.job id))
    (hl : s.HoldsLocks id → job.Locked → t.writes = some (.job id))
    (hserved : (s.jobs id).Served cfg.serialize → job.Served cfg.serialize)
    (hc : ∀ left goal, job = .checking left goal → s.jobs id = .idle ∧ left = blobsToCheck goal)
    (ha : ∀ locked c handle, s.jobs id ≠ .announcing locked c handle) : JobStep cfg s event t id where
  toFollows := hf
  blobs := hb
  collectors := hcol
  others := fun other hne => by rw [hjobs, Function.update_of_ne hne]
  holds := hh
  mutation := hmut
  writes := hwr
  locks := fun h => by
    constructor
    all_goals rw [hjobs, Function.update_self]
    · exact hm
    · exact hl h
  served := by rw [hjobs, Function.update_self]; exact hserved
  checked := fun left goal hj => by
    rw [hjobs, Function.update_self] at hj
    exact .inl (hc left goal hj)
  announces := fun locked c handle hj => absurd hj (ha locked c handle)
  whole := fun hw => .inl (hwhole hw)

end JobStep

/-! ### The steps, one by one -/

section

variable {cfg : Config} {s t : State} {event : Event} {id : Nat}

theorem startChecking_step {valid : Bool} {goal : Record} (hidle : s.jobs id = .idle) (hs : cfg.serialize = true)
    (h : s.startChecking id valid goal = some t) : JobStep cfg s event t id := by
  unfold State.startChecking at h
  split at h
  · cases h
  next hw =>
  rw [not_not] at hw
  split at h
  · cases h
    exact .of_moves _ ⟨rfl, List.prefix_refl _⟩ (fun _ => .inl) (fun hw => hw) (fun _ => .inl) rfl rfl (.inl rfl)
      (.inr (.inl ⟨hw, rfl⟩)) False.elim (fun _ _ => rfl) (fun _ => hs)
      (fun left goal' hj => by cases hj; exact ⟨hidle, rfl⟩) (fun locked c handle hj => by cases hidle.symm.trans hj)
  · cases h
    exact .refused hidle (Quiet.refl _)

theorem start_step {request : Request} (h : s.start cfg id request = some t) : JobStep cfg s event t id := by
  unfold State.start at h
  split at h
  · cases h
  next hn =>
  rw [not_or, not_not, Bool.not_eq_false] at hn
  obtain ⟨hidle, hserved⟩ := hn
  cases request with
  | getCandidates key =>
    cases h
    exact .refused hidle (.of_shrinks (Store.readCandidates_shrinks _ _ _))
  | getDeclared key =>
    cases h
    exact .refused hidle (.of_shrinks (Store.readDeclared_shrinks _ _ _))
  | getArchive name =>
    cases h
    exact .refused hidle (.of_shrinks (Store.readArchive_shrinks _ _ _))
  | headBlob digest =>
    cases h
    split
    · exact .enters hidle not_false not_false trivial
    · exact .refused hidle (Quiet.refl _)
  | putBlob digest bytes =>
    cases h
    exact .enters hidle not_false not_false trivial
  | recordUse staticKey actionKey =>
    cases h
    exact .enters hidle not_false not_false trivial
  | storeCandidate c => exact startChecking_step hidle hserved h
  | putDeclared r => exact startChecking_step hidle hserved h
  | putArchive m => exact startChecking_step hidle hserved h
  | execute r blobs =>
    dsimp only at h
    split at h
    · cases h
    have hs := Store.readDeclared_shrinks cfg.validators s.store r.key
    split at h
    · cases h
      exact .enters hidle not_false not_false hserved
    · next hr =>
      cases h
      rw [hr] at hs
      exact .refused hidle (.of_shrinks hs)
  | cacheCaptured c blobs =>
    dsimp only at h
    split at h
    · cases h
      exact .enters hidle not_false not_false (by rwa [Request.served, Bool.not_eq_true'] at hserved)
    · cases h

/-- A put under the mutation lock: what it adds it publishes. -/
theorem publish_step {locked : Bool} {goal : Record} {now : Nat} (hgoal : (s.jobs id).publishing = some goal)
    (hlocked : s.HoldsLocks id → locked = true → s.writes = some (.job id))
    (h : s.publish cfg id locked goal now = some t) : JobStep cfg s (.proceed id now) t id := by
  have hquiet : ∀ locked c handle, s.jobs id ≠ .announcing locked c handle := fun locked c handle hj => by
    rw [hj] at hgoal
    cases hgoal
  unfold State.publish at h
  split at h
  · cases h
  next hm =>
  rw [not_not] at hm
  -- a put that ends the job
  have hends : ∀ store : Store, store.blobs = s.store.blobs → store.journal = s.store.journal →
      (∀ r, store.Holds r → s.store.Holds r ∨ r = goal ∧ s.store.admits cfg.validators goal = true) →
      (∀ c, goal ≠ .candidate c) → JobStep cfg s (.proceed id now) ({ s with store := store }.finish id) id := by
    intro store hb hj hh hc
    have hg := Grows.of_eq hb hj
    refine .of_moves _ hg.toFollows (fun d hd => .inl (hg.blobs d hd)) (.of_eq hj) (fun r hr => (hh r hr).imp_right ?_)
      rfl rfl (.release id _) (.release id _) False.elim (fun _ => False.elim) (fun _ => trivial) (by simp) hquiet
    rintro ⟨rfl, hadm⟩
    exact ⟨⟨now, rfl⟩, hgoal, hm, hadm, hb, fun c he => absurd he (hc c)⟩
  cases goal with
  | candidate c =>
    dsimp only at h
    split at h
    next hv =>
      split at h
      · next store hw =>
        obtain ⟨hb, hj, hh⟩ := Store.writeCandidate_spec hw
        cases h
        have hg := Grows.of_eq hb hj
        refine .of_moves (.announcing locked c none) hg.toFollows (fun d hd => .inl (hg.blobs d hd)) (.of_eq hj)
          (fun r hr => (hh r hr).imp_right ?_) rfl rfl (.inr (.inl ⟨hm, rfl⟩)) (.inl rfl) (fun _ => rfl)
          (fun hl hj => hlocked hl ?_) (fun _ => trivial) (by simp) hquiet
        · rintro ⟨-, rfl⟩
          refine ⟨⟨now, rfl⟩, hgoal, hm, Store.admits_of_writeCandidate hv hw, hb, fun c' he => ⟨locked, ?_⟩⟩
          cases he
          exact Function.update_self _ _ _
        · cases locked
          · exact hj.elim
          · rfl
      · next store hw =>
        obtain ⟨hb, hj, hh⟩ := Store.writeCandidate_spec hw
        cases h
        exact .finish hquiet ⟨.of_eq hb hj, fun r hr => (hh r hr).resolve_right fun hok => (by cases hok.1), .of_eq hj⟩
    next =>
      cases h
      exact .finish hquiet (Quiet.refl _)
  | declared r =>
    cases h
    obtain ⟨hb, hj, hh⟩ := Store.writeDeclared_spec cfg.validators s.store r now
    split
    · next hv =>
      refine hends _ hb hj (fun r' hr' => (hh r' hr').imp_right ?_) (by simp)
      rintro ⟨he, hl⟩
      exact ⟨he, by simp only [Store.admits, hv, hl, Option.isNone_none, Bool.and_self]⟩
    · exact hends s.store rfl rfl (fun _ => .inl) (by simp)
  | archive m =>
    cases h
    obtain ⟨hb, hj, hh⟩ := Store.writeArchive_spec cfg.validators s.store m now
    split
    · next hv =>
      refine hends _ hb hj (fun r' hr' => (hh r' hr').imp_right ?_) (by simp)
      rintro ⟨he, hl⟩
      exact ⟨he, by simp only [Store.admits, hv, hl, Option.isNone_none, Bool.and_self]⟩
    · exact hends s.store rfl rfl (fun _ => .inl) (by simp)

/-- The first half of a replacement. -/
theorem discardBlob_step {digest : Text} {bytes : Nat} {left : List (Text × Nat)} {goal : Option Record}
    (hjob : s.jobs id = .storing ((digest, bytes) :: left) goal) (hm : s.mutation = none)
    (hmisread : s.store.hasBlob digest = true → event = .misread id) :
    JobStep cfg s event (s.discardBlob id digest bytes left goal) id := by
  refine .of_moves (.replacing digest bytes left goal) ⟨rfl, List.prefix_refl _⟩ (fun d hd => ?_) (fun hw => hw)
    (fun r hr => .inl hr) rfl rfl (.inr (.inl ⟨hm, rfl⟩)) (.inl rfl) (fun _ => rfl) (fun _ => False.elim) ?_ (by simp)
    (by simp [hjob])
  · by_cases he : d = digest
    · subst he
      exact .inr ⟨hmisread hd, bytes, left, goal, hjob⟩
    · exact .inl ((Store.hasBlob_removeBlob he).trans hd)
  · rw [hjob]
    exact fun h => h

theorem commitBlob_step {digest : Text} {bytes : Nat} {left : List (Text × Nat)} {goal : Option Record} {now : Nat}
    (hjob : s.jobs id = .storing ((digest, bytes) :: left) goal)
    (h : s.commitBlob id digest bytes left goal now = some t) : JobStep cfg s event t id := by
  have hserved : (s.jobs id).Served cfg.serialize → (Job.storing left goal).Served cfg.serialize := by
    rw [hjob]
    exact fun h => h
  unfold State.commitBlob at h
  split at h
  · cases h
  next hm =>
  rw [not_not] at hm
  cases hb : s.store.blobs.lookup digest with
  | none =>
    rw [hb] at h
    cases h
    exact .of_quiet (Quiet.place _ _ _ _) False.elim False.elim hserved (by simp) (by simp [hjob])
  | some blob =>
    rw [hb] at h
    dsimp only at h
    split at h
    · cases h
      exact .of_quiet (Quiet.touch _ _ _) False.elim False.elim hserved (by simp) (by simp [hjob])
    · next hi =>
      cases h
      refine discardBlob_step hjob hm fun hd => ?_
      rw [Store.hasBlob, hb] at hd
      exact absurd hd hi

theorem misread_step (h : s.misread id = some t) : JobStep cfg s (.misread id) t id := by
  unfold State.misread at h
  split at h
  · next hjob =>
    obtain ⟨⟨hm, -⟩, h⟩ := Option.ite_none_right_eq_some.1 h
    cases h
    exact discardBlob_step hjob hm fun _ => rfl
  · cases h

theorem hasBlob_of_checks {digest : Text} {len : Option Nat} (h : s.checks digest len = true) :
    s.store.hasBlob digest = true := by
  unfold State.checks at h
  unfold Store.hasBlob
  rw [Option.any_eq_true] at h ⊢
  obtain ⟨blob, hb, h⟩ := h
  exact ⟨blob, hb, (Bool.and_eq_true_iff.1 h).1⟩

theorem proceed_step {now : Nat} (h : s.proceed cfg id now = some t) : JobStep cfg s (.proceed id now) t id := by
  unfold State.proceed at h
  split at h
  · cases h
  · next hj =>
    cases h
    exact .finish (by simp [hj]) (Quiet.touch _ _ _)
  · next hj =>
    cases h
    exact .finish (by simp [hj]) (Quiet.refl _)
  · next goal hj => exact publish_step (by rw [hj]; rfl) (fun _ => Bool.noConfusion) h
  · next hj => exact commitBlob_step hj h
  · next digest bytes left goal hj =>
    cases h
    have hq := Quiet.place s.store digest bytes now
    refine .of_moves (.storing left goal) hq.toFollows (fun d hd => .inl (hq.blobs d hd)) hq.whole
      (fun r hr => .inl (hq.holds r hr)) rfl rfl (.release id _) (.release id _) False.elim (fun _ => False.elim) ?_
      (by simp) (by simp [hj])
    rw [hj]
    exact fun h => h
  · next goal hj =>
    exact publish_step (by rw [hj]; rfl) (fun hl _ => hl.writes (by rw [hj]; trivial)) h
  · next digest len left goal hj =>
    cases h
    split
    · next hb =>
      refine .of_quiet (Quiet.refl _) False.elim (fun _ => by rw [hj]; trivial) (by rw [hj]; exact fun h => h) ?_
        (by simp [hj])
      intro left' goal' he
      cases he
      exact ⟨digest, len, hj, hasBlob_of_checks hb⟩
    · exact .finish (by simp [hj]) (Quiet.refl _)
  · next hj =>
    cases h
    exact .of_quiet (Quiet.refl _) False.elim False.elim (fun _ => trivial) (by simp) (by simp [hj])
  · next hj =>
    cases h
    split
    · exact .of_quiet (Quiet.refl _) False.elim False.elim (by rw [hj]; exact fun h => h) (by simp) (by simp [hj])
    · exact .finish (by simp [hj]) (Quiet.refl _)
  · next locked c hj =>
    cases h
    refine .of_quiet (Quiet.opened _) (fun _ => by rw [hj]; trivial) ?_ (fun _ => trivial) (by simp) (by simp [hj])
    rw [hj]
    cases locked <;> exact fun h => h
  · next locked c handle hj =>
    cases h
    have hq := Quiet.append s.store handle ⟨c.staticKey, c.actionKey, now⟩
    refine .of_finish hq.toGrows hq.holds (fun locked' c' handle' he => ?_) fun hw => .inl (hq.whole hw)
    cases hj.symm.trans he
    refine .inl ⟨by simp, fun hh hw => ⟨⟨c.staticKey, c.actionKey, now⟩, ?_, rfl, rfl⟩⟩
    rw [Option.some.inj hh]
    exact lines_append hw _
  · next hj =>
    cases h
    exact .of_quiet (Quiet.opened _) False.elim False.elim (fun _ => trivial) (by simp) (by simp [hj])
  · next hj =>
    cases h
    exact .finish (by simp [hj]) (Quiet.append _ _ _)

theorem giveUp_step (h : s.giveUp id = some t) : JobStep cfg s (.giveUp id) t id := by
  unfold State.giveUp at h
  split at h
  · cases h
  · cases h
    exact .of_finish (.of_eq rfl rfl) (fun _ hr => hr) (fun _ _ _ _ => .inr (.inl rfl)) .inl

theorem Grows.cutShort (s : Store) (handle : Nat) (told : Option Use) :
    Grows s { s with journal := s.journal.cutShort handle told } :=
  .write (f := fun file => file.cutShort told) (fun file => List.prefix_refl file.lines) s handle

theorem cutShort_step {told : Option Nat} (h : s.cutShort id told = some t) :
    JobStep cfg s (.cutShort id told) t id := by
  unfold State.cutShort at h
  split at h
  · cases h
    exact .of_finish (.cutShort _ _ _) (fun _ hr => hr) (fun _ _ _ _ => .inr (.inr ⟨told, rfl⟩)) fun _ => .inr ⟨told, rfl⟩
  · cases h
    exact .of_finish (.cutShort _ _ _) (fun _ hr => hr) (fun _ _ _ _ => .inr (.inr ⟨told, rfl⟩)) fun _ => .inr ⟨told, rfl⟩
  · cases h

end

end Bellows.Collect
