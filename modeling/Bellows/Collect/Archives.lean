/-
Archive names over the life of a store.

A name is bound by the first put, and every put of another tree is refused
while its file is there (`run_publishOnce`). Two things take the file away: a
collection that evicts the archive, and damage to the file, for which the next
reader quarantines it. After either the name is free, and may be bound to
another tree.
-/
import Bellows.Collect.Candidates

namespace Bellows.Core.Store

variable {v : Validators} {s : Store} {name : Text}

/-! ## The file of a name -/

/-- The name is bound: reading it gives an archive of this tree. -/
def Resolves (v : Validators) (s : Store) (name tree : Text) : Prop :=
  ∃ m, (s.readArchive v name).1 = some (some m) ∧ m.treeDigest = tree

/-- A file that validates under the name is still there. -/
def KeepsArchive (v : Validators) (name : Text) (s t : Store) : Prop :=
  ∀ file, s.archives.lookup name = some file → v.archive file.1 = true → file.1.name = name →
    t.archives.lookup name = some file

theorem resolves_iff {tree : Text} : s.Resolves v name tree ↔
    ∃ file, s.archives.lookup name = some file ∧ v.archive file.1 = true ∧ file.1.name = name ∧
      file.1.treeDigest = tree := by
  unfold Resolves readArchive
  cases s.archives.lookup name with
  | none => simp
  | some file =>
    dsimp only
    constructor
    · intro h
      obtain ⟨m, hm, htree⟩ := h
      split at hm
      · next hv =>
        rw [Bool.and_eq_true, beq_iff_eq] at hv
        cases hm
        exact ⟨file, rfl, hv.1, hv.2, htree⟩
      · cases hm
    · intro h
      obtain ⟨file', hfile, hv, hname, htree⟩ := h
      cases hfile
      refine ⟨file.1, ?_, htree⟩
      rw [if_pos]
      simp [hv, hname]

theorem Resolves.keeps {t : Store} {tree : Text} (h : s.Resolves v name tree) (hk : KeepsArchive v name s t) :
    t.Resolves v name tree := by
  obtain ⟨file, hl, hv, hname, htree⟩ := resolves_iff.1 h
  exact resolves_iff.2 ⟨file, hk file hl hv hname, hv, hname, htree⟩

theorem KeepsArchive.of_eq {t : Store} (h : t.archives = s.archives) : KeepsArchive v name s t :=
  fun file hl _ _ => by rw [h, hl]

theorem readArchive_of_valid {file : ArchiveManifest × Nat} (hl : s.archives.lookup name = some file)
    (hv : v.archive file.1 = true) (hname : file.1.name = name) :
    s.readArchive v name = (some (some file.1), s) := by
  rw [readArchive, hl]
  dsimp only
  rw [if_pos]
  simp [hv, hname]

/-- Reading quarantines no file that validates. -/
theorem keepsArchive_readArchive (v : Validators) (s : Store) (name read : Text) :
    KeepsArchive v name s (s.readArchive v read).2 := by
  intro file hl hv hname
  by_cases heq : read = name
  · rw [heq, readArchive_of_valid hl hv hname]
    exact hl
  · unfold readArchive
    split
    · exact hl
    split
    · exact hl
    · show (s.archives.erase read).lookup name = some file
      rw [Assoc.lookup_erase_eq_ite, if_neg (Ne.symm heq)]
      exact hl

/-- A put leaves the file of a bound name as it is. -/
theorem keepsArchive_writeArchive (v : Validators) (s : Store) (name : Text) (m : ArchiveManifest) (now : Nat) :
    KeepsArchive v name s (s.writeArchive v m now) := by
  intro file hl hv hname
  have hread := keepsArchive_readArchive v s name m.name file hl hv hname
  unfold writeArchive
  split
  · next t hr =>
    obtain ⟨hvacant, rfl⟩ := readArchive_eq_none hr
    have hne : name ≠ m.name := by
      intro heq
      rw [← heq, hl] at hvacant
      cases hvacant
    show (AList.insert _ _ _).lookup _ = _
    rw [Assoc.lookup_insert_eq_ite, if_neg hne]
    exact hl
  · next hr =>
    rw [hr] at hread
    exact hread

theorem keepsArchive_putArchive (v : Validators) (s : Store) (name : Text) (m : ArchiveManifest) (now : Nat) :
    KeepsArchive v name s (s.putArchive v m now).2 := by
  rw [putArchive_store]
  split
  · exact keepsArchive_writeArchive v s name m now
  · exact .of_eq rfl

/-- A put that succeeds binds its name. -/
theorem resolves_putArchive {m : ArchiveManifest} {now : Nat} {isNew : Bool}
    (h : (s.putArchive v m now).1 = .ok isNew) : (s.putArchive v m now).2.Resolves v m.name m.treeDigest := by
  have hv : v.archive m = true := by
    by_contra hv
    rw [putArchive, if_neg hv] at h
    cases h
  rcases hl : s.archives.lookup m.name with _ | file
  · have hput : s.putArchive v m now = (.ok true, { s with archives := s.archives.insert m.name (m, now) }) := by
      rw [putArchive, if_pos hv, readArchive, hl]
    rw [hput]
    exact resolves_iff.2 ⟨(m, now), AList.lookup_insert _, hv, rfl, rfl⟩
  · by_cases hfile : v.archive file.1 = true ∧ file.1.name = m.name
    · rw [putArchive, if_pos hv, readArchive_of_valid hl hfile.1 hfile.2] at h ⊢
      dsimp only at h ⊢
      by_cases htree : file.1.treeDigest = m.treeDigest
      · exact resolves_iff.2 ⟨file, hl, hfile.1, hfile.2, htree⟩
      · rw [if_neg htree] at h
        cases h
    · have hread : s.readArchive v m.name = (none, s.remove (.archive m.name)) := by
        rw [readArchive, hl]
        exact if_neg (by simpa using hfile)
      rw [putArchive, if_pos hv, hread] at h
      cases h

/-- A bound name refuses every other tree. -/
theorem Resolves.conflict {m : ArchiveManifest} {tree : Text} (h : s.Resolves v m.name tree) (hv : v.archive m = true)
    (hne : m.treeDigest ≠ tree) (now : Nat) : s.putArchive v m now = (.error .conflict, s) := by
  obtain ⟨file, hl, hvalid, hname, htree⟩ := resolves_iff.1 h
  rw [putArchive, if_pos hv, readArchive_of_valid hl hvalid hname]
  dsimp only
  rw [if_neg (by rw [htree]; exact Ne.symm hne)]

theorem archives_readCandidates (v : Validators) (s : Store) (key : Text) :
    (s.readCandidates v key).2.archives = s.archives := by
  unfold readCandidates
  split
  · rfl
  split <;> rfl

theorem archives_writeCandidate {maxCandidates : Nat} {c : ActionCandidate} {ok : Bool} {t : Store}
    (h : s.writeCandidate v maxCandidates c = (ok, t)) : t.archives = s.archives := by
  have hread := archives_readCandidates v s c.staticKey
  unfold writeCandidate at h
  split at h
  · next hr =>
    rw [hr] at hread
    cases h
    exact hread
  · next hr =>
    rw [hr] at hread
    cases h
    exact hread

theorem archives_readDeclared (v : Validators) (s : Store) (key : Text) :
    (s.readDeclared v key).2.archives = s.archives := by
  unfold readDeclared
  split
  · rfl
  split <;> rfl

theorem archives_writeDeclared (v : Validators) (s : Store) (r : DeclaredActionRecord) (now : Nat) :
    (s.writeDeclared v r now).archives = s.archives := by
  have hread := archives_readDeclared v s r.key
  unfold writeDeclared
  split
  · next hr =>
    rw [hr] at hread
    exact hread
  · next hr =>
    rw [hr] at hread
    exact hread

theorem archives_touchBlob (s : Store) (digest : Text) (now : Nat) :
    ((s.touchBlob digest now).getD s).archives = s.archives := by
  unfold touchBlob
  cases s.blobs.lookup digest <;> rfl

theorem archives_refresh (v : Validators) (failing : List Text) (r : Recent) (s : Store) :
    (r.refresh v failing s).2.archives = s.archives := by
  have hindex : ∀ (keys : List Text) (r : Recent × Store),
      (keys.foldl (Recent.readIndex v failing) r).2.archives = r.2.archives := by
    intro keys
    induction keys with
    | nil => intro r; rfl
    | cons key keys ih =>
      intro r
      have hread := archives_readCandidates v r.2 key
      rw [List.foldl_cons, ih]
      unfold Recent.readIndex
      split
      · rfl
      split
      · next hr =>
        rw [hr] at hread
        exact hread
      · next hr =>
        rw [hr] at hread
        exact hread
  exact hindex _ _

/-- An eviction from another file. -/
theorem keepsArchive_evictFrom (v : Validators) (s : Store) (uses : List (Text × Text)) {path : RecordPath}
    (units : List GcUnit) (h : path ≠ .archive name) : KeepsArchive v name s (s.evictFrom uses path units) := by
  intro file hl _ _
  have hremove : (s.remove path).archives.lookup name = some file := by
    cases path with
    | action key => exact hl
    | declared key => exact hl
    | archive other =>
      show (s.archives.erase other).lookup name = some file
      rw [Assoc.lookup_erase_eq_ite, if_neg (by rintro rfl; exact h rfl)]
      exact hl
  unfold evictFrom
  split
  · exact hremove
  split
  · split
    · exact hl
    dsimp only
    split
    · exact hl
    split
    · exact hremove
    · exact hl
  · exact hl

end Bellows.Core.Store

namespace Bellows.Collect

open Bellows.Core Transition

variable {cfg : Config} {s t : State} {name : Text}

/-! ## Steps that keep the file of a name -/

theorem start_keepsArchive {id : Nat} {request : Request} (h : s.start cfg id request = some t) (name : Text) :
    s.store.KeepsArchive cfg.validators name t.store := by
  unfold State.start at h
  split at h
  · cases h
  have hcheck : ∀ valid goal, s.startChecking id valid goal = some t →
      s.store.KeepsArchive cfg.validators name t.store := by
    intro valid goal h
    unfold State.startChecking at h
    split at h
    · cases h
    split at h <;> cases h <;> exact .of_eq rfl
  cases request with
  | getCandidates key =>
    cases h
    exact .of_eq (Store.archives_readCandidates _ _ _)
  | getDeclared key =>
    cases h
    exact .of_eq (Store.archives_readDeclared _ _ _)
  | getArchive read =>
    cases h
    exact Store.keepsArchive_readArchive _ _ _ _
  | headBlob digest =>
    cases h
    split <;> exact .of_eq rfl
  | putBlob digest bytes =>
    cases h
    exact .of_eq rfl
  | recordUse staticKey actionKey =>
    cases h
    exact .of_eq rfl
  | storeCandidate c => exact hcheck _ _ h
  | putDeclared r => exact hcheck _ _ h
  | putArchive m => exact hcheck _ _ h
  | execute r blobs =>
    dsimp only at h
    split at h
    · cases h
    have hread := Store.archives_readDeclared cfg.validators s.store r.key
    split at h
    · cases h
      exact .of_eq rfl
    · next hr =>
      cases h
      rw [hr] at hread
      exact .of_eq hread
  | cacheCaptured c blobs =>
    dsimp only at h
    split at h
    · cases h
      exact .of_eq rfl
    · cases h

theorem publish_keepsArchive {id now : Nat} {locked : Bool} {goal : Record}
    (h : s.publish cfg id locked goal now = some t) (name : Text) :
    s.store.KeepsArchive cfg.validators name t.store := by
  unfold State.publish at h
  split at h
  · cases h
  cases goal with
  | candidate c =>
    dsimp only at h
    split at h
    · split at h
      · next hw =>
        cases h
        exact .of_eq (Store.archives_writeCandidate hw)
      · next hw =>
        cases h
        exact .of_eq (Store.archives_writeCandidate hw)
    · cases h
      exact .of_eq rfl
  | declared r =>
    cases h
    split
    · exact .of_eq (Store.archives_writeDeclared _ _ _ _)
    · exact .of_eq rfl
  | archive m =>
    cases h
    split
    · exact Store.keepsArchive_writeArchive _ _ _ _ _
    · exact .of_eq rfl

theorem commitBlob_keepsArchive {id bytes now : Nat} {digest : Text} {left : List (Text × Nat)}
    {goal : Option Record} (h : s.commitBlob id digest bytes left goal now = some t) (name : Text) :
    s.store.KeepsArchive cfg.validators name t.store := by
  unfold State.commitBlob at h
  split at h
  · cases h
  split at h
  · cases h
    exact .of_eq rfl
  split at h
  · cases h
    exact .of_eq (Store.archives_touchBlob _ _ _)
  · cases h
    exact .of_eq rfl

theorem misread_keepsArchive {id : Nat} (h : s.misread id = some t) (name : Text) :
    s.store.KeepsArchive cfg.validators name t.store := by
  unfold State.misread at h
  split at h
  · obtain ⟨-, h⟩ := Option.ite_none_right_eq_some.1 h
    cases h
    exact .of_eq rfl
  · cases h

theorem proceed_keepsArchive {id now : Nat} (h : s.proceed cfg id now = some t) (name : Text) :
    s.store.KeepsArchive cfg.validators name t.store := by
  unfold State.proceed at h
  split at h
  · cases h
  · cases h
    exact .of_eq (Store.archives_touchBlob _ _ _)
  · cases h
    exact .of_eq rfl
  · exact publish_keepsArchive h name
  · exact commitBlob_keepsArchive h name
  · cases h
    exact .of_eq rfl
  · exact publish_keepsArchive h name
  · cases h
    split <;> exact .of_eq rfl
  · cases h
    exact .of_eq rfl
  · cases h
    split <;> exact .of_eq rfl
  all_goals
    cases h
    exact .of_eq rfl

theorem giveUp_keepsArchive {id : Nat} (h : s.giveUp id = some t) (name : Text) :
    s.store.KeepsArchive cfg.validators name t.store := by
  unfold State.giveUp at h
  split at h
  · cases h
  · cases h
    exact .of_eq rfl

theorem cutShort_keepsArchive {id : Nat} {told : Option Nat} (h : s.cutShort id told = some t) (name : Text) :
    s.store.KeepsArchive cfg.validators name t.store := by
  unfold State.cutShort at h
  split at h
  · cases h
    exact .of_eq rfl
  · cases h
    exact .of_eq rfl
  · cases h

/-- A collection is about to evict the archive of the name. -/
def State.Evicts (s : State) (id : Nat) (name : Text) : Prop :=
  ∃ scan recent units now left,
    s.collectors id = .applying scan recent (.evictBatch ((.archive name, units) :: now) left)

theorem Collects.keepsArchive {event : Event} {id : Nat} (h : Collects cfg s event id t)
    (hn : event = .advance id → ¬ s.Evicts id name) : s.store.KeepsArchive cfg.validators name t.store := by
  cases h with
  | batchBegun scan recent failing => exact .of_eq (Store.archives_refresh _ failing _ _)
  | evicted scan recent path units now left he hc =>
    exact Store.keepsArchive_evictFrom _ _ _ _ fun heq => hn he ⟨scan, recent, units, now, left, heq ▸ hc⟩
  | _ => exact .of_eq rfl

/-- **Only an eviction of the archive takes a valid file away.** -/
theorem keepsArchive_step {event : Event} (h : State.Step cfg s event t)
    (hn : ∀ id, event = .advance id → ¬ s.Evicts id name) : s.store.KeepsArchive cfg.validators name t.store := by
  cases event with
  | start id request => exact start_keepsArchive h name
  | proceed id now => exact proceed_keepsArchive h name
  | giveUp id => exact giveUp_keepsArchive h name
  | cutShort id told => exact cutShort_keepsArchive h name
  | collect id options now => exact (collect_collects h).keepsArchive (hn id)
  | misread id => exact misread_keepsArchive h name
  | enter id shards => exact (enter_collects h).keepsArchive (hn id)
  | listBlobs id order => exact (listBlobs_collects h).keepsArchive (hn id)
  | listRecords id order => exact (listRecords_collects h).keepsArchive (hn id)
  | overlook id => exact (overlook_collects h).keepsArchive (hn id)
  | readRecord id path modifiedMs => exact (readRecord_collects h).keepsArchive (hn id)
  | advance id => exact (advance_collects h).keepsArchive (hn id)
  | passOver id failing => exact (passOver_collects h).keepsArchive (hn id)
  | abandon id => exact (abandon_collects h).keepsArchive (hn id)

/-! ## Archives in a store in use -/

inductive ArchiveEvent where
  /-- A step of a request, a wrapper or the collection. -/
  | inUse (event : Event)
  /-- `put_archive` of a process of its own. -/
  | put (m : ArchiveManifest) (now : Nat)
  /-- `read_archive` of a process of its own. -/
  | read (name : Text)
  /-- The file of the name is damaged: what is found in it does not validate. -/
  | damage (name : Text) (found : ArchiveManifest) (now : Nat)
  deriving DecidableEq, Repr

namespace State

def archiveStep (cfg : Config) (s : State) : ArchiveEvent → Option State
  | .inUse event => s.step cfg event
  | .put m now =>
    if s.mutation = none then some { s with store := (s.store.putArchive cfg.validators m now).2 } else none
  | .read name => some { s with store := (s.store.readArchive cfg.validators name).2 }
  | .damage name found now =>
    if (s.store.archives.lookup name).isSome && !(cfg.validators.archive found && found.name == name) then
      some { s with store := { s.store with archives := s.store.archives.insert name (found, now) } }
    else none

/-- The system's steps, as a relation. -/
def ArchiveStep (cfg : Config) (s : State) (event : ArchiveEvent) (t : State) : Prop :=
  s.archiveStep cfg event = some t

/-- What frees a name: the archive's eviction, or damage to its file, which is
then quarantined. -/
def Frees (s : State) (name : Text) : ArchiveEvent → Prop
  | .inUse event => ∃ id, event = .advance id ∧ s.Evicts id name
  | .damage damaged _ _ => damaged = name
  | _ => False

end State

/-- A bound name stays bound to its tree, until it is freed. -/
theorem resolves_step {event : ArchiveEvent} {tree : Text} (h : State.ArchiveStep cfg s event t)
    (hn : ¬ s.Frees name event) (hr : s.store.Resolves cfg.validators name tree) :
    t.store.Resolves cfg.validators name tree := by
  refine hr.keeps ?_
  cases event with
  | inUse event => exact keepsArchive_step h fun id he hevict => hn ⟨id, he, hevict⟩
  | put m now =>
    obtain ⟨-, h⟩ := Option.ite_none_right_eq_some.1 h
    cases h
    exact Store.keepsArchive_putArchive _ _ _ _ _
  | read other =>
    cases h
    exact Store.keepsArchive_readArchive _ _ _ _
  | damage damaged found now =>
    obtain ⟨-, h⟩ := Option.ite_none_right_eq_some.1 h
    cases h
    intro file hl _ _
    show (AList.insert _ _ _).lookup _ = _
    rw [Assoc.lookup_insert_eq_ite, if_neg (Ne.symm hn)]
    exact hl

/-- **A name, once bound, stays bound to its tree and refuses every other,
until a collection evicts the archive or its file is damaged.** -/
theorem run_publishOnce (cfg : Config) (store : Store) {ms : List (Move State ArchiveEvent)}
    (h : Run (State.ArchiveStep cfg) (.init store) ms s) :
    ∀ before m after, ms = before ++ m :: after → ∀ name tree,
      (m.post.store.Resolves cfg.validators name tree ∨ ∃ a now isNew, m.label = .put a now ∧
        (m.pre.store.putArchive cfg.validators a now).1 = .ok isNew ∧ a.name = name ∧ a.treeDigest = tree) →
      (∀ m' ∈ after, ¬ m'.pre.Frees name m'.label) →
      ∀ m' ∈ after, m'.post.store.Resolves cfg.validators name tree ∧
        ∀ a now, cfg.validators.archive a = true → a.name = name → a.treeDigest ≠ tree →
          m'.post.store.putArchive cfg.validators a now = (.error .conflict, m'.post.store) := by
  intro before m after he name tree hbound hkept
  have hresolves : m.post.store.Resolves cfg.validators name tree := by
    rcases hbound with hr | ⟨a, now, isNew, hlabel, hput, rfl, rfl⟩
    · exact hr
    · have hstep := (h.mem m (he ▸ List.mem_append_right _ List.mem_cons_self)).2
      rw [State.ArchiveStep, hlabel] at hstep
      obtain ⟨-, hstep⟩ := Option.ite_none_right_eq_some.1 hstep
      rw [← Option.some.inj hstep]
      exact Store.resolves_putArchive hput
  have hall := (h.after he).posts_of (fun s => s.store.Resolves cfg.validators name tree)
    (fun s event => ¬ s.Frees name event) hresolves (fun _ _ _ hr hstep hn => resolves_step hstep hn hr) hkept
  intro m' hm'
  refine ⟨hall.1 m' hm', fun a now hv hname hne => ?_⟩
  subst hname
  exact (hall.1 m' hm').conflict hv hne now

/-! ## Names that are bound to two trees -/

/-- An archive of one file, or of none. -/
def testArchive (tree : Text) (files : List Artifact) : ArchiveManifest where
  protocol := 6
  name := "tests-v1".toList
  treeDigest := tree
  createdMs := 1
  producerAction := none
  files := files

def firstArchive : ArchiveManifest := testArchive (contentKey '5') [⟨"one".toList, contentKey 'a', false⟩]

def secondArchive : ArchiveManifest := testArchive (contentKey '6') []

/-- A store with the one blob. -/
def blobStore : Store where
  blobs := (∅ : Assoc Text Blob).insert (contentKey 'a') ⟨10, 0, true⟩
  actions := ∅
  declared := ∅
  archives := ∅
  journal := ⟨0, none, []⟩

/-- The second archive is refused. -/
theorem run_publishOnce_refused : ∃ s, Reachable (State.ArchiveStep (server permissive 8)) (.init blobStore) s ∧
    s.store.Resolves permissive "tests-v1".toList (contentKey '5') ∧
      s.store.putArchive permissive secondArchive 3 = (.error .conflict, s.store) := by
  let bound : State := { State.init blobStore with store := (blobStore.putArchive permissive firstArchive 1).2 }
  have hfirst : State.ArchiveStep (server permissive 8) (.init blobStore) (.put firstArchive 1) bound := rfl
  have hsecond : State.ArchiveStep (server permissive 8) bound (.put secondArchive 2)
      { bound with store := (bound.store.putArchive permissive secondArchive 2).2 } := rfl
  have hrun := (Run.nil.snoc hfirst).snoc hsecond
  obtain ⟨hresolves, hrefuses⟩ := run_publishOnce (server permissive 8) blobStore hrun [] _ _ rfl "tests-v1".toList
    (contentKey '5') (.inr ⟨firstArchive, 1, true, rfl, by decide +kernel, rfl, rfl⟩)
    (fun m hm => by rw [List.mem_singleton.1 hm]; exact id) _ List.mem_cons_self
  exact ⟨_, ⟨_, hrun⟩, hresolves, hrefuses secondArchive 3 rfl rfl (by decide +kernel)⟩

def ArchiveEvent.isDamage : ArchiveEvent → Bool
  | .damage _ _ _ => true
  | _ => false

def ArchiveEvent.isCollect : ArchiveEvent → Bool
  | .inUse (.collect _ _ _) => true
  | _ => false

/-- A collection of `blobStore`, to nothing, with the first archive in it, and
the second archive after it. -/
def putAfterEviction : List ArchiveEvent :=
  [.collect 0 ⟨0, false, none, none⟩ 2000, .advance 0, .advance 0, .enter 0 ["aa".toList], .listBlobs 0 [contentKey 'a'],
    .advance 0, .advance 0, .advance 0, .enter 0 [], .advance 0, .advance 0, .enter 0 [], .advance 0, .advance 0,
    .enter 0 [[]], .listRecords 0 [.archive "tests-v1".toList], .advance 0, .readRecord 0 (.archive "tests-v1".toList) 1,
    .advance 0, .advance 0, .advance 0, .advance 0].map .inUse ++
    [.put secondArchive 3000]

/-- The file is damaged, and found to be; then the second archive. -/
def putAfterQuarantine : List ArchiveEvent :=
  [.damage "tests-v1".toList { firstArchive with name := "tests-v2".toList } 2, .read "tests-v1".toList,
    .put secondArchive 3]

theorem rebound (kind : ArchiveEvent → Bool) (events : List ArchiveEvent)
    (h : (([.put firstArchive 1].foldlM (fun (s : State) event => if kind event = false then
        s.archiveStep (server permissive 8) event else none) (State.init blobStore)).any fun s =>
      decide ((s.store.readArchive permissive "tests-v1".toList).1 = some (some firstArchive)) &&
        (events.foldlM (fun (s : State) event => if kind event = false then
          s.archiveStep (server permissive 8) event else none) s).any fun t =>
          decide ((t.store.readArchive permissive "tests-v1".toList).1 = some (some secondArchive))) = true) :
    ¬ ∀ ms s ms' t, Run (State.ArchiveStep (server permissive 8)) (.init blobStore) ms s →
      Run (State.ArchiveStep (server permissive 8)) s ms' t → (∀ m ∈ ms ++ ms', kind m.label = false) →
      ∀ name tree tree', s.store.Resolves permissive name tree → t.store.Resolves permissive name tree' →
        tree = tree' := by
  intro hall
  obtain ⟨s, hs, h⟩ := (Option.any_eq_true _ _).1 h
  rw [Bool.and_eq_true] at h
  obtain ⟨hfirst, h⟩ := h
  obtain ⟨t, ht, hsecond⟩ := (Option.any_eq_true _ _).1 h
  obtain ⟨ms, hr, hk⟩ := Run.foldlM_checked (fun (s : State) event => s.archiveStep (server permissive 8) event)
    (fun _ event => kind event = false) _ _ hs
  obtain ⟨ms', hr', hk'⟩ := Run.foldlM_checked (fun (s : State) event => s.archiveStep (server permissive 8) event)
    (fun _ event => kind event = false) _ _ ht
  have htrees := hall ms s ms' t hr hr' (fun m hm => (List.mem_append.1 hm).elim (hk m) (hk' m)) "tests-v1".toList _ _
    ⟨firstArchive, of_decide_eq_true hfirst, rfl⟩ ⟨secondArchive, of_decide_eq_true hsecond, rfl⟩
  exact absurd htrees (by decide +kernel)

/-- **A collection frees a name, and so does damage to its file**: it is bound
to another tree after. -/
theorem archive_rebound :
    (¬ ∀ ms s ms' t, Run (State.ArchiveStep (server permissive 8)) (.init blobStore) ms s →
      Run (State.ArchiveStep (server permissive 8)) s ms' t → (∀ m ∈ ms ++ ms', m.label.isDamage = false) →
      ∀ name tree tree', s.store.Resolves permissive name tree → t.store.Resolves permissive name tree' →
        tree = tree') ∧
    ¬ ∀ ms s ms' t, Run (State.ArchiveStep (server permissive 8)) (.init blobStore) ms s →
      Run (State.ArchiveStep (server permissive 8)) s ms' t → (∀ m ∈ ms ++ ms', m.label.isCollect = false) →
      ∀ name tree tree', s.store.Resolves permissive name tree → t.store.Resolves permissive name tree' →
        tree = tree' :=
  ⟨rebound ArchiveEvent.isDamage putAfterEviction (by decide +kernel),
    rebound ArchiveEvent.isCollect putAfterQuarantine (by decide +kernel)⟩

end Bellows.Collect
