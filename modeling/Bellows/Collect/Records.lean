/-
Declared records and archives, and a server's collections.

They leave no line in the journal, so a collection under way knows nothing of
one that is published after its plan was made. The records it has seen it
shelters, as it does candidates; of the others it may delete a blob that was
offered before it began, between the publication and the end of the
collection. And `execute_declared` puts its record without looking again for
the outputs it has put before.
-/
import Bellows.Collect.Candidates

namespace Bellows.Collect

open Bellows.Core Transition

/-! ## What is put during a collection -/

/-- The accepted declared records and archives. -/
def AcceptedRecord (v : Validators) (r : Record) : Prop :=
  v.accepts r = true ∧ ∀ c, r ≠ .candidate c

/-- **What a server's steps must spare**, where no put takes a blob for a
corrupt one. A blob to remove is not one of a record put since the collection
began, or in a directory that it has overlooked; a record that is put without a
check has all its blobs. -/
structure SparesRecords (v : Validators) (ms : List (Move State Event)) (s : State) (event : Event) : Prop where
  removals : ∀ id scan recent d now left, event = .advance id →
    s.collectors id = .applying scan recent (.removing d now left) →
      ∀ r, Unseen ms id r → AcceptedRecord v r → s.store.Holds r → d ∉ r.digests
  puts : ∀ id now r, event = .proceed id now → s.jobs id = .storing [] (some r) → AcceptedRecord v r →
    s.store.admits v r = true → s.store.AllPresent r

/-- The same where a put may do so: a blob so taken is not one of a record, and
a record that was checked still has all its blobs. -/
structure KeepsRecords (v : Validators) (ms : List (Move State Event)) (s : State) (event : Event) : Prop
    extends SparesRecords v ms s event where
  checkedPuts : ∀ id now r, event = .proceed id now → s.jobs id = .checking [] r → AcceptedRecord v r →
    s.store.admits v r = true → s.store.AllPresent r
  reads : ReadsSpare (AcceptedRecord v) s event

/-- Every declared record and archive that is read has all its blobs. -/
structure RecordsPresent (v : Validators) (store : Store) : Prop where
  declared : ∀ key r, (store.readDeclared v key).1 = some (some r) → store.AllPresent (.declared r)
  archives : ∀ name m, (store.readArchive v name).1 = some (some m) → store.AllPresent (.archive m)

theorem recordsPresent_iff {v : Validators} {store : Store} :
    RecordsPresent v store ↔ Complete (AcceptedRecord v) store := by
  constructor
  · rintro h r ⟨hv, hr⟩ hh
    cases r with
    | candidate c => exact absurd rfl (hr c)
    | declared r => exact h.declared r.key r (Store.readDeclared_of_holds hv hh)
    | archive m => exact h.archives m.name m (Store.readArchive_of_holds hv hh)
  · intro h
    constructor
    · intro key r hr
      obtain ⟨hv, hh⟩ := Store.readDeclared_eq_some hr
      exact h _ ⟨hv, nofun⟩ hh
    · intro name m hm
      obtain ⟨hv, hh⟩ := Store.readArchive_eq_some hm
      exact h _ ⟨hv, nofun⟩ hh

/-! ## Records the collection knows -/

section

variable {cfg : Config} {v : Validators} {ms : List (Move State Event)} {s t : State} {event : Event}

/-- A collection that spares what it has not seen spares every record. -/
theorem SparesRecords.removalsSpare (h : SparesRecords v ms s event) (hi : Inv cfg s) (hc : Covered ms s) :
    RemovalsSpare (AcceptedRecord v) s event := by
  rintro id scan recent d now left he hcol r hr hh
  rcases hc id r hh with hsh | hn | ⟨c, hcand, -⟩
  · exact not_mem_digests_of_removing (hi.sound id) hcol hsh
  · exact h.removals id scan recent d now left he hcol r hn hr hh
  · exact absurd hcand (hr.2 c)

theorem KeepsRecords.putsComplete (h : KeepsRecords v ms s event) : PutsComplete v (AcceptedRecord v) s event := by
  rintro id now r he hgoal hr hadm
  unfold Job.publishing at hgoal
  split at hgoal
  · next hj =>
    rw [hgoal] at hj
    exact h.puts id now r he hj hr hadm
  · next hj =>
    cases hgoal
    exact h.checkedPuts id now r he hj hr hadm
  · cases hgoal

theorem keepsRecords_of_present (h : State.Step cfg s event t) (ht : RecordsPresent cfg.validators t.store) :
    KeepsRecords cfg.validators ms s event := by
  rw [recordsPresent_iff] at ht
  have hputs := ht.puts h
  exact ⟨⟨fun id scan recent d now left he hcol r _ => ht.removals h id scan recent d now left he hcol r,
    fun id now r he hj => hputs id now r he (by rw [hj]; rfl)⟩,
    fun id now r he hj => hputs id now r he (by rw [hj]; rfl), ht.reads h⟩

end

/-- **A server keeps its declared records and archives complete exactly as long
as its steps spare them.** Where no put takes a blob for a corrupt one, only the
collections and `execute_declared` can fail to: a collection as it deletes a
blob of what was put since it began, `execute_declared` as it puts what does not
have all its blobs. -/
theorem server_recordsPresent_iff (v : Validators) (maxCandidates : Nat) (store : Store)
    (h₀ : RecordsPresent v store) {ms : List (Move State Event)} {s : State}
    (h : Run (State.Step (server v maxCandidates)) (.init store) ms s) :
    ((∀ m ∈ ms, RecordsPresent v m.post.store) ↔ Meets (KeepsRecords v) ms) ∧
      ((∀ m ∈ ms, ∀ id, m.label ≠ .misread id) →
        ((∀ m ∈ ms, RecordsPresent v m.post.store) ↔ Meets (SparesRecords v) ms)) := by
  have hiff := h.posts_iff_meets
    (fun ms s => Inv (server v maxCandidates) s ∧ Covered ms s ∧ RecordsPresent v s.store)
    (fun s => RecordsPresent v s.store) (KeepsRecords v)
    ⟨Inv.init _ store, fun _ _ _ => .inl trivial, h₀⟩
    (fun _ _ ⟨_, _, hp⟩ => hp)
    (fun _ _ _ _ ⟨hi, hc, hp⟩ ht hk => ⟨hi.step ht, hc.step hi ht, recordsPresent_iff.2
      ((recordsPresent_iff.1 hp).step ht hk.putsComplete hk.reads (hk.removalsSpare hi hc))⟩)
    (fun _ _ _ _ _ ht hn hall => hn (keepsRecords_of_present ht hall))
  refine ⟨hiff, fun hreads => hiff.trans ⟨fun hk => hk.imp fun _ _ _ hk => hk.toSparesRecords, fun hs => ?_⟩⟩
  refine hs.imp fun _ m hm hs => ⟨hs, fun id now r _ hj _ _ => ?_, readsSpare_of_ne (hreads m hm)⟩
  exact (checked_of_run h hreads m hm).2.allPresent hj

/-! ### An archive put between two batches -/

theorem oldStore_recordsPresent : RecordsPresent permissive oldStore :=
  recordsPresent_iff.2 fun r _ => oldStore_complete r

/-- An archive of the library's file. -/
def libraryArchive : ArchiveManifest where
  protocol := 6
  name := "serde".toList
  treeDigest := contentKey '5'
  createdMs := 2500
  producerAction := none
  files := [⟨"libserde.rlib".toList, contentKey 'a', false⟩]

/-- The archive's blob is offered; a collection begins, and evicts the old
library; the archive is put, its blob being there; the collection goes on to
delete the blob. -/
def archiveDuringCollection : List Event :=
  [.start 0 (.headBlob (contentKey 'a')), .proceed 0 1000] ++ scanOldStore ++ List.replicate 4 (.advance 0) ++
    .start 0 (.putArchive libraryArchive) :: List.replicate 2 (.proceed 0 2500) ++ List.replicate 3 (.advance 0)

/-- **A collection deletes a blob of an archive that was put under it.** -/
theorem server_archive_dangles : (∀ r, oldStore.Holds r → oldStore.AllPresent r) ∧
    ∃ s, Reachable (State.Step (server permissive 8)) (.init oldStore) s ∧ ¬ RecordsPresent permissive s.store := by
  refine ⟨oldStore_complete, ?_⟩
  have hrun : (archiveDuringCollection.foldlM (State.step (server permissive 8)) (State.init oldStore)).any (fun s =>
      decide ((s.store.readArchive permissive "serde".toList).1 = some (some libraryArchive)) &&
        !s.store.hasBlob (contentKey 'a')) = true := by
    decide +kernel
  obtain ⟨s, hs, hr⟩ := (Option.any_eq_true _ _).1 hrun
  rw [Bool.and_eq_true, decide_eq_true_eq, Bool.not_eq_true'] at hr
  refine ⟨s, Run.foldlM _ _ _ hs, fun hall => ?_⟩
  have := hall.archives _ _ hr.1 (contentKey 'a') (by decide +kernel)
  rw [hr.2] at this
  cases this

/-- The old library goes; the archive's blob is offered and the archive is put,
and the collection deletes the other blob. -/
def archiveOfferedAgain : List Event :=
  scanOldStore ++ List.replicate 4 (.advance 0) ++
    [.start 0 (.headBlob (contentKey 'a')), .proceed 0 2500, .start 0 (.putArchive libraryArchive), .proceed 0 2500,
      .proceed 0 2500] ++ List.replicate 7 (.advance 0)

theorem server_recordsPresent_iff_offered : ∃ ms s, Run (State.Step (server permissive 8)) (.init oldStore) ms s ∧
    (s.store.readArchive permissive "serde".toList).1 = some (some libraryArchive) ∧
      s.store.hasBlob (contentKey 'b') = false ∧
      ((∀ m ∈ ms, RecordsPresent permissive m.post.store) ↔ Meets (KeepsRecords permissive) ms) ∧
      ((∀ m ∈ ms, RecordsPresent permissive m.post.store) ↔ Meets (SparesRecords permissive) ms) := by
  obtain ⟨ms, s, hr, hsteady, hread⟩ := exists_run (server permissive 8) Event.fails
    (fun s => decide ((s.store.readArchive permissive "serde".toList).1 = some (some libraryArchive)) &&
      !s.store.hasBlob (contentKey 'b')) archiveOfferedAgain (by decide +kernel)
  rw [Bool.and_eq_true, decide_eq_true_eq, Bool.not_eq_true'] at hread
  obtain ⟨hkeeps, hspares⟩ := server_recordsPresent_iff permissive 8 oldStore oldStore_recordsPresent hr
  exact ⟨ms, s, hr, hread.1, hread.2, hkeeps,
    hspares fun m hm => (faultless_of_not_fails (hsteady m hm) m.pre).verifies⟩

end Bellows.Collect
