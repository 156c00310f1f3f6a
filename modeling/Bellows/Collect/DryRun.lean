/-
What a dry run reports is what a collection of the same store does: every file
that the plan names loses just the records planned (`Removes`), every blob it
selects is there to be deleted.
-/
import Bellows.Core.PlanSpec
import Bellows.Core.StoreFacts
import Bellows.Collect.Collection

namespace Bellows.Collect

open Bellows.Core Batches

/-! ## Counting records -/

/-- The records of a store. -/
def records (s : Store) : List Record :=
  (s.paths .actions ++ s.paths .declared ++ s.paths .archives).flatMap s.recordsAt

theorem length_flatMap_keys {υ : Type} (m : Assoc Text υ) {f : Text → List Record} (size : υ → Nat)
    (h : ∀ k v, m.lookup k = some v → (f k).length = size v) :
    (m.keys.flatMap f).length = (m.entries.map fun file => size file.2).sum := by
  rw [List.length_flatMap, AList.keys, List.keys, List.map_map]
  congr 1
  exact List.map_congr_left fun file hf => h file.1 file.2 (Assoc.mem_entries_iff.1 hf)

theorem length_records (s : Store) : (records s).length =
    (s.actions.entries.map (·.2.length)).sum + s.declared.entries.length + s.archives.entries.length := by
  have hactions : (s.actions.keys.flatMap fun key => s.recordsAt (.action key)).length =
      (s.actions.entries.map fun file => file.2.length).sum :=
    length_flatMap_keys s.actions List.length fun key index h => by simp [Store.recordsAt, h]
  have hdeclared : (s.declared.keys.flatMap fun key => s.recordsAt (.declared key)).length =
      (s.declared.entries.map fun _ => 1).sum :=
    length_flatMap_keys s.declared (fun _ => 1) fun key file h => by simp [Store.recordsAt, h]
  have harchives : (s.archives.keys.flatMap fun name => s.recordsAt (.archive name)).length =
      (s.archives.entries.map fun _ => 1).sum :=
    length_flatMap_keys s.archives (fun _ => 1) fun name file h => by simp [Store.recordsAt, h]
  rw [List.map_const', List.sum_replicate_nat, Nat.mul_one] at hdeclared harchives
  simp only [records, Store.paths, List.flatMap_append, List.length_append, List.flatMap_map]
  omega

section
variable {υ : Type} {m : Assoc Text υ} {k : Text}

theorem entries_erase_of_none (h : m.lookup k = none) : (m.erase k).entries = m.entries := by
  refine List.kerase_of_notMem_keys fun hmem => ?_
  have hsome : (m.lookup k).isSome = true := AList.lookup_isSome.2 hmem
  rw [h] at hsome
  cases hsome

/-- A file that is removed, if it is there. -/
theorem length_entries_erase (m : Assoc Text υ) (k : Text) :
    (m.erase k).entries.length + (m.lookup k).isSome.toNat = m.entries.length := by
  cases h : m.lookup k with
  | none => simp [entries_erase_of_none h]
  | some v => simp [(Assoc.entries_perm_erase h).length_eq]

end

theorem sum_lengths_erase {m : Assoc Text (List ActionCandidate)} {key : Text} {index : List ActionCandidate}
    (h : m.lookup key = some index) :
    ((m.erase key).entries.map (·.2.length)).sum + index.length = (m.entries.map (·.2.length)).sum := by
  rw [((Assoc.entries_perm_erase h).map _).sum_eq, List.map_cons, List.sum_cons, Nat.add_comm]

/-- Records go from a file as `evict_from` counts them. -/
theorem length_records_evictFrom (s : Store) (uses : List (Text × Text)) {path : RecordPath} {units : List GcUnit}
    (h : units.all (·.candidate.isNone) = true → path.directory ≠ .actions) :
    (records (s.evictFrom uses path units)).length + evictedFrom s uses path units = (records s).length := by
  rw [length_records, length_records]
  unfold Store.evictFrom evictedFrom
  cases path with
  | declared key =>
    have hlen := length_entries_erase s.declared key
    split
    · cases hk : (s.declared.lookup key).isSome <;> simp [Store.remove, hasFile, hk] at hlen ⊢ <;> omega
    · rfl
  | archive name =>
    have hlen := length_entries_erase s.archives name
    split
    · cases hk : (s.archives.lookup name).isSome <;> simp [Store.remove, hasFile, hk] at hlen ⊢ <;> omega
    · rfl
  | action key =>
    rw [if_neg fun hnone => h hnone rfl, if_neg fun hnone => h hnone rfl]
    dsimp only
    cases hl : s.actions.lookup key with
    | none => rfl
    | some index =>
      have hsum := sum_lengths_erase hl
      have hle := List.length_filter_le (fun c => !units.any (Store.evicts uses c)) index
      dsimp only
      split
      · omega
      split
      · next hnil =>
        simp only [Store.remove, hnil, List.length_nil]
        omega
      · have hentries : ∀ kept, (s.actions.insert key kept).entries = ⟨key, kept⟩ :: (s.actions.erase key).entries :=
          fun _ => rfl
        simp only [hentries, List.map_cons, List.sum_cons]
        omega

/-! ## Evicting -/

/-- What `evict_from` removes depends on its file alone. -/
theorem evictedFrom_congr {s t : Store} {path : RecordPath} (hfile : hasFile t path = hasFile s path)
    (hindex : ∀ key, path = .action key → t.actions.lookup key = s.actions.lookup key)
    (uses : List (Text × Text)) (units : List GcUnit) :
    evictedFrom t uses path units = evictedFrom s uses path units := by
  unfold evictedFrom
  rw [hfile]
  cases path with
  | declared _ | archive _ => rfl
  | action key =>
    dsimp only
    rw [hindex key rfl]

theorem evictFrom_cases (s : Store) (uses : List (Text × Text)) (path : RecordPath) (units : List GcUnit) :
    s.evictFrom uses path units = s ∨ s.evictFrom uses path units = s.remove path ∨
      ∃ key kept, path = .action key ∧
        s.evictFrom uses path units = { s with actions := s.actions.insert key kept } := by
  unfold Store.evictFrom
  split
  · exact .inr (.inl rfl)
  split
  · next key =>
    split
    · exact .inl rfl
    dsimp only
    split
    · exact .inl rfl
    split
    · exact .inr (.inl rfl)
    · exact .inr (.inr ⟨key, _, rfl, rfl⟩)
  · exact .inl rfl

theorem evictedFrom_evictFrom (s : Store) (uses : List (Text × Text)) {path other : RecordPath} (h : other ≠ path)
    (units : List GcUnit) (uses' : List (Text × Text)) (units' : List GcUnit) :
    evictedFrom (s.evictFrom uses path units) uses' other units' = evictedFrom s uses' other units' := by
  rcases evictFrom_cases s uses path units with heq | heq | ⟨key, kept, rfl, heq⟩
  · rw [heq]
  · rw [heq]
    refine evictedFrom_congr ?_ ?_ uses' units'
    · cases path <;> cases other <;> try rfl
      all_goals exact congrArg Option.isSome (AList.lookup_erase_ne fun heq => h (congrArg _ heq))
    · rintro other rfl
      cases path with
      | declared _ | archive _ => rfl
      | action key => exact AList.lookup_erase_ne fun heq => h (congrArg _ heq)
  · have hlookup : ∀ k, other = .action k → (s.actions.insert key kept).lookup k = s.actions.lookup k := by
      rintro k rfl
      exact AList.lookup_insert_ne fun heq => h (congrArg _ heq)
    rw [heq]
    refine evictedFrom_congr ?_ hlookup uses' units'
    cases other with
    | declared _ | archive _ => rfl
    | action k => exact congrArg Option.isSome (hlookup k rfl)

/-- Evicting the units empties or rewrites their file of just as many records. -/
structure Removes (s : Store) (file : RecordPath × List GcUnit) : Prop where
  evictedFrom_eq : evictedFrom s [] file.1 file.2 = file.2.length
  kind : file.2.all (·.candidate.isNone) = true → file.1.directory ≠ .actions

/-- The run of the first loop: each file loses the records planned, and no
blob goes. -/
theorem foldlM_evict : ∀ (files : List (RecordPath × List GcUnit)) (a : Applied), a.recent = .empty →
    (files.map (·.1)).Nodup → (∀ file ∈ files, Removes a.store file) →
    ∃ store : Store, files.foldlM Applied.evict a = some { a with
        store := store, recordsEvicted := a.recordsEvicted + (files.map (·.2.length)).sum } ∧
      store.blobs = a.store.blobs ∧ store.journal = a.store.journal ∧
      (records store).length + (files.map (·.2.length)).sum = (records a.store).length
  | [], a, _, _, _ => ⟨a.store, rfl, rfl, rfl, rfl⟩
  | file :: files, a, hr, hn, hall => by
    obtain ⟨hremoves, hall⟩ := List.forall_mem_cons.1 hall
    rw [List.map_cons, List.nodup_cons] at hn
    have hcount := length_records_evictFrom a.store [] hremoves.kind
    have hshrinks := Store.evictFrom_shrinks a.store [] file.1 file.2
    have heq : a.evict file = some { a with
        store := a.store.evictFrom [] file.1 file.2, recordsEvicted := a.recordsEvicted + file.2.length } := by
      have huses : a.recent.uses = [] := by rw [hr]; rfl
      rw [Applied.evict, huses, hremoves.evictedFrom_eq]
    obtain ⟨store, hfold, hblobs, hjournal, hrecords⟩ := foldlM_evict files { a with
        store := a.store.evictFrom [] file.1 file.2, recordsEvicted := a.recordsEvicted + file.2.length } hr hn.2 <| by
      intro other ho
      have hne : other.1 ≠ file.1 := fun heq => hn.1 (heq ▸ List.mem_map_of_mem ho)
      refine ⟨?_, (hall other ho).kind⟩
      rw [evictedFrom_evictFrom a.store [] hne]
      exact (hall other ho).evictedFrom_eq
    rw [hremoves.evictedFrom_eq] at hcount
    refine ⟨store, ?_, hblobs.trans hshrinks.blobs, hjournal.trans hshrinks.journal, ?_⟩
    · rw [List.foldlM_cons, heq, List.map_cons, List.sum_cons, ← Nat.add_assoc]
      exact hfold
    · dsimp only at hrecords
      rw [List.map_cons, List.sum_cons]
      omega

/-! ## Deleting -/

/-- The bytes of the blobs. -/
def blobBytes (s : Store) : Nat := (s.blobs.entries.map (·.2.bytes)).sum

def bytesAt (s : Store) (digest : Text) : Nat := ((s.blobs.lookup digest).map (·.bytes)).getD 0

/-- There is a blob of that name, and no clock slack can excuse it. -/
structure Deletable (s : Store) (startedMs : Nat) (digest : Text) : Prop where
  name : validContentKey digest = true
  old : ∃ blob, s.blobs.lookup digest = some blob ∧ blob.modifiedMs + COARSE_CLOCK_SLACK_MS < startedMs

/-- The run of the second loop: every blob is deleted, none is skipped. -/
theorem foldlM_delete (scan : Scan) : ∀ (digests : List Text) (a : Applied), a.recent = .empty → digests.Nodup →
    (∀ digest ∈ digests, Deletable a.store scan.startedMs digest) →
    ∃ store : Store, digests.foldlM (Applied.delete scan) a = some { a with
        store := store, deleted := a.deleted + digests.length } ∧
      records store = records a.store ∧ store.journal = a.store.journal ∧
      store.blobs.entries.length + digests.length = a.store.blobs.entries.length ∧
      blobBytes store + (digests.map (bytesAt a.store)).sum = blobBytes a.store
  | [], a, _, _, _ => ⟨a.store, rfl, rfl, rfl, rfl, rfl⟩
  | digest :: digests, a, hr, hn, hall => by
    obtain ⟨⟨hname, blob, hblob, hold⟩, hall⟩ := List.forall_mem_cons.1 hall
    obtain ⟨hfresh, hn⟩ := List.nodup_cons.1 hn
    have hspared : State.spared scan a.recent digest blob = false := by
      have hlt : saturatingAdd blob.modifiedMs COARSE_CLOCK_SLACK_MS < scan.startedMs :=
        Nat.lt_of_le_of_lt (Nat.min_le_left _ _) hold
      rw [State.spared, hr]
      simp [hlt, Recent.empty]
    have heq : a.delete scan digest = some { a with
        store := a.store.removeBlob digest, deleted := a.deleted + 1 } := by
      simp [Applied.delete, hname, hblob, hspared]
    have hlookup : ∀ other ∈ digests, (a.store.removeBlob digest).blobs.lookup other = a.store.blobs.lookup other :=
      fun other ho => AList.lookup_erase_ne fun heq => hfresh (heq ▸ ho)
    obtain ⟨store, hfold, hrecords, hjournal, hlength, hbytes⟩ := foldlM_delete scan digests
      { a with store := a.store.removeBlob digest, deleted := a.deleted + 1 } hr hn <| by
        intro other ho
        obtain ⟨hname, blob, hblob, hold⟩ := hall other ho
        exact ⟨hname, blob, (hlookup other ho).trans hblob, hold⟩
    have hperm := Assoc.entries_perm_erase hblob
    have hmap : digests.map (bytesAt (a.store.removeBlob digest)) = digests.map (bytesAt a.store) :=
      List.map_congr_left fun other ho => by rw [bytesAt, hlookup other ho, bytesAt]
    refine ⟨store, ?_, hrecords, hjournal, ?_, ?_⟩
    · rw [List.foldlM_cons, heq, List.length_cons, Nat.add_comm digests.length, ← Nat.add_assoc]
      exact hfold
    · have hlen := hperm.length_eq
      simp only [List.length_cons, Store.removeBlob] at hlen hlength ⊢
      omega
    · have hsum := (hperm.map (·.2.bytes)).sum_eq
      have hat : bytesAt a.store digest = blob.bytes := by rw [bytesAt, hblob]; rfl
      dsimp only at hbytes
      rw [hmap] at hbytes
      simp only [blobBytes, Store.removeBlob] at hbytes
      simp only [List.map_cons, List.sum_cons] at hsum ⊢
      rw [hat, blobBytes, blobBytes, hsum]
      omega

/-! ## What the plan names -/

/-- The part of a list that one key contributed. -/
theorem filter_flatMap_key {κ α : Type} [DecidableEq κ] {l : List κ} (hl : l.Nodup)
    {f : κ → List α} {key : α → κ} (hkey : ∀ k ∈ l, ∀ a ∈ f k, key a = k) (k : κ) :
    (l.flatMap f).filter (key · == k) = if k ∈ l then f k else [] := by
  induction l with
  | nil => rfl
  | cons k' l ih =>
    obtain ⟨hfresh, hl⟩ := List.nodup_cons.1 hl
    obtain ⟨hkey', hkey⟩ := List.forall_mem_cons.1 hkey
    rw [List.flatMap_cons, List.filter_append, ih hl hkey]
    by_cases heq : k = k'
    · subst heq
      rw [if_neg hfresh, if_pos List.mem_cons_self, List.append_nil, List.filter_eq_self]
      intro a ha
      rw [hkey' a ha, beq_self_eq_true]
    · have hnone : (f k').filter (key · == k) = [] := by
        rw [List.filter_eq_nil_iff]
        intro a ha
        rw [hkey' a ha, beq_iff_eq]
        exact fun h => heq h.symm
      rw [hnone, List.nil_append]
      simp [heq]

/-- A store as its own operations leave it, with no blob modified since the
clock's slack before the start. -/
structure Settled (s : Store) (startedMs : Nat) : Prop where
  names : ∀ digest ∈ s.blobs.keys, validContentKey digest = true
  distinct : ∀ key index, s.actions.lookup key = some index → (index.map (·.actionKey)).Nodup
  old : ∀ digest blob, s.blobs.lookup digest = some blob → blob.modifiedMs + COARSE_CLOCK_SLACK_MS < startedMs

theorem settled_iff {s : Store} {startedMs : Nat} : Settled s startedMs ↔
    (∀ file ∈ s.blobs.entries, validContentKey file.1 = true ∧
      file.2.modifiedMs + COARSE_CLOCK_SLACK_MS < startedMs) ∧
    ∀ file ∈ s.actions.entries, (file.2.map (·.actionKey)).Nodup := by
  constructor
  · intro h
    refine ⟨fun file hf => ⟨h.names _ (List.mem_keys_of_mem hf), ?_⟩, fun file hf => ?_⟩
    · exact h.old file.1 file.2 (Assoc.mem_entries_iff.1 hf)
    · exact h.distinct file.1 file.2 (Assoc.mem_entries_iff.1 hf)
  · rintro ⟨hblobs, hactions⟩
    refine ⟨fun digest hd => ?_, fun key index hl => ?_, fun digest blob hl => ?_⟩
    · obtain ⟨file, hf, rfl⟩ := List.mem_map.1 hd
      exact (hblobs file hf).1
    · exact hactions ⟨key, index⟩ (Assoc.mem_entries_iff.2 hl)
    · exact (hblobs ⟨digest, blob⟩ (Assoc.mem_entries_iff.2 hl)).2

instance (s : Store) (startedMs : Nat) : Decidable (Settled s startedMs) := decidable_of_iff _ settled_iff.symm

section
variable (s : Store) (options : GcOptions) (startedMs : Nat)

theorem nodup_listing : (Scan.ofStore s options startedMs).listing.Nodup := by
  have hactions : (s.paths .actions).Nodup := s.actions.keys_nodup.map fun _ _ h => by injection h
  have hdeclared : (s.paths .declared).Nodup := s.declared.keys_nodup.map fun _ _ h => by injection h
  have harchives : (s.paths .archives).Nodup := s.archives.keys_nodup.map fun _ _ h => by injection h
  refine List.Nodup.append (hactions.append hdeclared ?_) harchives ?_
  · simp [List.disjoint_left, Store.paths]
  · simp only [List.disjoint_left, Store.paths, List.mem_append, List.mem_map]
    rintro _ (⟨key, -, rfl⟩ | ⟨key, -, rfl⟩) ⟨name, -, h⟩
    · cases h
    · cases h

/-- The records of a path, in the snapshot's order. -/
theorem records_at (path : RecordPath) :
    ((Scan.ofStore s options startedMs).records.filter (·.path == path)).map (·.record) =
      if path ∈ (Scan.ofStore s options startedMs).listing then s.recordsAt path else [] := by
  have hnodup := nodup_listing s options startedMs
  have hrecords : (Scan.ofStore s options startedMs).records.filter (·.path == path) = _ :=
    filter_flatMap_key hnodup (fun k _ a ha => by simpa using (List.mem_filter.1 ha).2) path
  have hscanned : (Scan.ofStore s options startedMs).scanned.filter (·.path == path) = _ :=
    filter_flatMap_key hnodup (fun k _ a ha => by obtain ⟨record, -, rfl⟩ := List.mem_map.1 ha; rfl) path
  rw [hrecords, hscanned]
  split
  · rw [List.map_map]
    exact List.map_id _
  · rfl

variable (scan : Scan)

/-- Units are the records, path by path and name by name. -/
theorem units_named : scan.snapshot.units.map (fun unit => (unit.path, unit.candidate)) =
    scan.records.map fun r => (r.path, r.record.identity) := by
  have hrep : scan.snapshot.Represents scan.records :=
    Snapshot.read_represents scan.uses scan.blobs scan.records scan.startedMs
  refine List.ext_getElem (by rw [List.length_map, List.length_map]; exact hrep.length_eq) fun i h h' => ?_
  rw [List.length_map] at h h'
  obtain ⟨unit, hunit, hpath, hcandidate, -⟩ := hrep.unit_of i _ (List.getElem?_eq_getElem h')
  obtain ⟨_, hget⟩ := List.getElem?_eq_some_iff.1 hunit
  rw [List.getElem_map, List.getElem_map, hget, hpath, hcandidate]

theorem evictedUnits_sublist : scan.evictedUnits.Sublist scan.snapshot.units := by
  have hsub : scan.evictedUnits.Sublist (scan.snapshot.units.zipIdx.map (·.1)) := List.filter_sublist.map _
  rwa [List.zipIdx_map_fst] at hsub

/-- The candidates' names among the evicted units of a path. -/
theorem evicted_at (path : RecordPath) :
    ((scan.evictedUnits.filter (·.path == path)).map (·.candidate)).Sublist
      ((scan.records.filter (·.path == path)).map (·.record.identity)) := by
  have hall := congrArg (fun l => (l.filter (·.1 == path)).map (·.2)) (units_named scan)
  simp only [List.filter_map, List.map_map] at hall
  have hsub := ((evictedUnits_sublist scan).filter (·.path == path)).map (·.candidate)
  exact hall ▸ hsub

end

section
variable {s : Store} {units : List GcUnit}

/-- Planned candidates of an index are found in it, each once. -/
theorem removes_candidates {key : Text} {index : List ActionCandidate} (hl : s.actions.lookup key = some index)
    (hn : (index.map (·.actionKey)).Nodup) (hne : units ≠ [])
    (hsub : (units.map (·.candidate)).Sublist (index.map fun c => some (c.actionKey, c.createdMs))) :
    Removes s (.action key, units) := by
  have hsome : ∀ unit ∈ units, unit.candidate.isNone = false := by
    intro unit hu
    obtain ⟨c, -, hc⟩ := List.mem_map.1 (hsub.subset (List.mem_map_of_mem hu))
    rw [← hc]
    rfl
  have hall : ¬ units.all (·.candidate.isNone) = true := by
    obtain ⟨unit, hu⟩ := List.exists_mem_of_ne_nil units hne
    intro hall
    have hnone := List.all_eq_true.1 hall unit hu
    rw [hsome unit hu] at hnone
    cases hnone
  refine ⟨?_, fun h => absurd h hall⟩
  have hnodup : (index.map fun c => some (c.actionKey, c.createdMs)).Nodup := by
    refine List.Nodup.of_map (fun name => name.map (·.1)) ?_
    rw [List.map_map]
    have hmap : index.map ((fun name : Option (Text × Nat) => name.map (·.1)) ∘ fun c => some (c.actionKey, c.createdMs)) =
        (index.map (·.actionKey)).map some := by simp
    rw [hmap]
    exact hn.map (Option.some_injective _)
  have hevicts : ∀ c : ActionCandidate, units.any (Store.evicts [] c) =
      decide (some (c.actionKey, c.createdMs) ∈ units.map (·.candidate)) := by
    intro c
    rw [Bool.eq_iff_iff, List.any_eq_true, decide_eq_true_iff, List.mem_map]
    simp [Store.evicts]
  -- what is removed are the names of the units, in the order of the index
  have hperm : ((index.map fun c => some (c.actionKey, c.createdMs)).filter fun name =>
      decide (name ∈ units.map (·.candidate))).Perm (units.map (·.candidate)) := by
    refine (List.perm_ext_iff_of_nodup (hnodup.filter _) (hnodup.sublist hsub)).2 fun name => ?_
    rw [List.mem_filter, decide_eq_true_iff]
    exact and_iff_right_of_imp fun h => hsub.subset h
  have hlength := hperm.length_eq
  rw [List.filter_map, List.length_map, List.length_map] at hlength
  have hsplit := List.length_eq_length_filter_add (l := index) fun c => units.any (Store.evicts [] c)
  have hremoved : (index.filter fun c => units.any (Store.evicts [] c)).length = units.length := by
    rw [← hlength]
    congr 1
    exact List.filter_congr fun c _ => hevicts c
  unfold evictedFrom
  rw [if_neg hall]
  simp only [hl]
  omega

/-- A planned declared action or archive is all that its file holds. -/
theorem removes_whole {path : RecordPath} (hdir : path.directory ≠ .actions) (hne : units ≠ [])
    (hsub : (units.map (·.candidate)).Sublist ((s.recordsAt path).map (·.identity))) : Removes s (path, units) := by
  have hpos := List.length_pos_iff.2 hne
  have hlength := hsub.length_le
  rw [List.length_map, List.length_map] at hlength
  have hwhole : (s.recordsAt path).length = (hasFile s path).toNat ∧ ∀ r ∈ s.recordsAt path, r.identity = none := by
    cases path with
    | action key => exact absurd rfl hdir
    | declared key =>
      cases h : s.declared.lookup key <;> simp [Store.recordsAt, hasFile, h, Record.identity]
    | archive name =>
      cases h : s.archives.lookup name <;> simp [Store.recordsAt, hasFile, h, Record.identity]
  have hall : units.all (·.candidate.isNone) = true := by
    refine List.all_eq_true.2 fun unit hu => ?_
    obtain ⟨r, hr, hc⟩ := List.mem_map.1 (hsub.subset (List.mem_map_of_mem hu))
    rw [← hc, hwhole.2 r hr]
    rfl
  refine ⟨?_, fun _ => hdir⟩
  unfold evictedFrom
  rw [if_pos hall]
  obtain ⟨hwhole, -⟩ := hwhole
  cases hfile : hasFile s path with
  | false =>
    rw [hfile, Bool.toNat_false] at hwhole
    omega
  | true =>
    rw [hfile, Bool.toNat_true] at hwhole
    rw [if_pos rfl]
    dsimp only
    omega

end

/-- Every file that the plan names loses the records planned. -/
theorem removes_of_mem {s : Store} {options : GcOptions} {startedMs : Nat} (hs : Settled s startedMs)
    {file : RecordPath × List GcUnit} (h : file ∈ (Scan.ofStore s options startedMs).evictions) : Removes s file := by
  obtain ⟨path, hpath, rfl⟩ := List.mem_map.1 h
  rw [List.mem_insertionSort, List.mem_dedup] at hpath
  obtain ⟨unit, hunit, hunitPath⟩ := List.mem_map.1 hpath
  have hne : (Scan.ofStore s options startedMs).evictedUnits.filter (·.path == path) ≠ [] :=
    List.ne_nil_of_mem (List.mem_filter.2 ⟨hunit, beq_iff_eq.2 hunitPath⟩)
  have hsub := evicted_at (Scan.ofStore s options startedMs) path
  have hidentity : ((Scan.ofStore s options startedMs).records.filter (·.path == path)).map (·.record.identity) =
      (((Scan.ofStore s options startedMs).records.filter (·.path == path)).map (·.record)).map (·.identity) := by
    rw [List.map_map]
    rfl
  rw [hidentity, records_at] at hsub
  have hempty : ∀ names : List (Option (Text × Nat)), names = [] →
      (((Scan.ofStore s options startedMs).evictedUnits.filter (·.path == path)).map (·.candidate)).Sublist names →
      False := by
    rintro names rfl hnil
    exact hne (List.map_eq_nil_iff.1 (List.sublist_nil.1 hnil))
  split at hsub
  · cases path with
    | declared key => exact removes_whole (by simp [RecordPath.directory]) hne hsub
    | archive name => exact removes_whole (by simp [RecordPath.directory]) hne hsub
    | action key =>
      cases hl : s.actions.lookup key with
      | none => exact (hempty _ (by simp [Store.recordsAt, hl]) hsub).elim
      | some index =>
        refine removes_candidates hl (hs.distinct key index hl) hne ?_
        simp only [Store.recordsAt, hl, Option.getD_some, List.map_map] at hsub
        exact hsub
  · exact (hempty _ rfl hsub).elim

/-- Every unit that is evicted is in one of the files named. -/
theorem sum_evictions (scan : Scan) :
    (scan.evictions.map (·.2.length)).sum = scan.report.recordsEvicted := by
  have hcount : scan.evictions.map (·.2.length) =
      ((scan.evictedUnits.map (·.path)).dedup.insertionSort fun a b => pathComponents a ≤ pathComponents b).map
        fun path => (scan.evictedUnits.map (·.path)).count path := by
    rw [Scan.evictions, List.map_map]
    refine List.map_congr_left fun path _ => ?_
    rw [List.count_eq_countP, List.countP_map, List.countP_eq_length_filter]
    rfl
  have hrange : List.range scan.snapshot.units.length = scan.snapshot.units.zipIdx.map (·.2) := by
    rw [List.zipIdx_map_snd, List.range_eq_range']
  rw [hcount, ((List.perm_insertionSort _ _).map _).sum_eq, List.sum_map_count_dedup_eq_length, List.length_map,
    Scan.evictedUnits, List.length_map, Scan.report, planReport, hrange, List.filter_map, List.length_map]
  rfl

/-! ## What the plan selects -/

section
variable (s : Store) (options : GcOptions) (startedMs : Nat)

theorem built_snapshot (scan : Scan) : scan.snapshot.Built := by
  rw [Scan.snapshot, Snapshot.read_eq_build]
  exact Snapshot.built_build _ _ _ _

theorem snapshot_blobs (scan : Scan) : scan.snapshot.blobs = scan.blobs := Snapshot.read_blobs _ _ _ _

/-- The name of a blob of the snapshot. -/
def digestOf (scan : Scan) (blob : Nat) : Text := (scan.blobs[blob]?.map (·.digest)).getD []

theorem selected_eq (scan : Scan) : scan.selected = scan.plan.selected.map (digestOf scan) := by
  rw [Scan.selected, ← List.filterMap_eq_map]
  refine List.filterMap_congr fun blob hb => ?_
  have hlt := ((Plan.mem_selected (built_snapshot scan) scan.options scan.startedMs blob).1 hb).1
  rw [snapshot_blobs] at hlt ⊢
  simp [digestOf, List.getElem?_eq_getElem hlt]

/-- Every blob of the snapshot is the file of its name. -/
theorem lookup_digestOf {blob : Nat} (h : blob < (Scan.ofStore s options startedMs).blobs.length) :
    ∃ file, s.blobs.lookup (digestOf (Scan.ofStore s options startedMs) blob) = some file ∧
      (Scan.ofStore s options startedMs).snapshot.bytesOf blob = file.bytes := by
  have hlt : blob < s.blobs.entries.length := by simpa [Scan.ofStore] using h
  refine ⟨s.blobs.entries[blob].2, ?_, ?_⟩
  · rw [← Assoc.mem_entries_iff]
    have hdigest : digestOf (Scan.ofStore s options startedMs) blob = s.blobs.entries[blob].1 := by
      simp [digestOf, Scan.ofStore, List.getElem?_eq_getElem hlt]
    rw [hdigest]
    exact List.getElem_mem hlt
  · rw [Snapshot.bytesOf, snapshot_blobs]
    simp [Scan.ofStore, List.getElem?_eq_getElem hlt]

theorem nodup_selected : (Scan.ofStore s options startedMs).selected.Nodup := by
  rw [selected_eq]
  have hbuilt := built_snapshot (Scan.ofStore s options startedMs)
  refine (Plan.nodup_selected hbuilt _ _).map_on fun a ha b hb heq => ?_
  have hlt : ∀ blob ∈ (Scan.ofStore s options startedMs).plan.selected, blob < s.blobs.entries.length := by
    intro blob h
    have hmem := ((Plan.mem_selected hbuilt _ _ blob).1 h).1
    simpa [snapshot_blobs, Scan.ofStore] using hmem
  have hkey : ∀ blob ∈ (Scan.ofStore s options startedMs).plan.selected,
      s.blobs.keys[blob]? = some (digestOf (Scan.ofStore s options startedMs) blob) := by
    intro blob h
    simp [digestOf, Scan.ofStore, List.getElem?_eq_getElem (hlt blob h), AList.keys, List.keys]
  have hkeys := (hkey a ha).trans ((congrArg some heq).trans (hkey b hb).symm)
  refine (List.getElem?_inj ?_ s.blobs.keys_nodup).1 hkeys
  obtain ⟨halt, -⟩ := List.getElem?_eq_some_iff.1 (hkey a ha)
  exact halt

theorem deletable_of_mem {s : Store} {startedMs : Nat} (hs : Settled s startedMs) {digest : Text}
    (h : digest ∈ (Scan.ofStore s options startedMs).selected) : Deletable s startedMs digest := by
  rw [selected_eq] at h
  obtain ⟨blob, hb, rfl⟩ := List.mem_map.1 h
  have hlt := ((Plan.mem_selected (built_snapshot (Scan.ofStore s options startedMs)) _ _ blob).1 hb).1
  rw [snapshot_blobs] at hlt
  obtain ⟨file, hfile, -⟩ := lookup_digestOf s options startedMs hlt
  refine ⟨hs.names _ (AList.mem_keys.1 (AList.lookup_isSome.1 ?_)), file, hfile, hs.old _ _ hfile⟩
  rw [hfile]
  rfl

/-- The blobs deleted have the bytes that the plan takes off. -/
theorem sum_bytesAt : ((Scan.ofStore s options startedMs).selected.map (bytesAt s)).sum =
    (Scan.ofStore s options startedMs).snapshot.bytesWhere (· ∈ (Scan.ofStore s options startedMs).plan.selected) := by
  have hbuilt := built_snapshot (Scan.ofStore s options startedMs)
  have hmem : ∀ blob, blob ∈ (Scan.ofStore s options startedMs).plan.selected ↔ _ := Plan.mem_selected hbuilt _ _
  have hnodup : (Scan.ofStore s options startedMs).plan.selected.Nodup := Plan.nodup_selected hbuilt _ _
  rw [selected_eq, List.map_map, ← Snapshot.sum_bytesOf _ hnodup fun blob hb => ((hmem blob).1 hb).1]
  congr 1
  refine List.map_congr_left fun blob hb => ?_
  have hlt := ((hmem blob).1 hb).1
  rw [snapshot_blobs] at hlt
  obtain ⟨file, hfile, hbytes⟩ := lookup_digestOf s options startedMs hlt
  rw [hbytes, Function.comp_apply, bytesAt, hfile]
  rfl

end

/-! ## The collection -/

/-- The options but for `dryRun` decide the plan. -/
theorem plan_dryRun (s : Store) (options : GcOptions) (dryRun : Bool) (startedMs : Nat) :
    (Scan.ofStore s { options with dryRun := dryRun } startedMs).plan = (Scan.ofStore s options startedMs).plan := by
  have hevictions : ∀ snapshot : Snapshot, Plan.evictions snapshot { options with dryRun := dryRun } startedMs =
      Plan.evictions snapshot options startedMs := by
    intro snapshot
    rw [Plan.evictions, Plan.evictions, Plan.evictToFit_eq, Plan.evictToFit_eq]
    rfl
  simp only [Scan.plan, Plan.new, Scan.ofStore, hevictions]
  rfl

/-- No use is recorded since the journal was rotated. -/
structure Undisturbed (a : Applied) : Prop where
  recent : a.recent = .empty
  log : a.store.journal.log = none

theorem Undisturbed.refresh {a : Applied} (h : Undisturbed a) (v : Validators) : a.refresh v = a := by
  have hlines : a.store.journal.lines = [] := by rw [Journal.lines, Journal.file, h.log]; rfl
  have hrefresh : Recent.empty.refresh v [] a.store = (.empty, a.store) := by
    simp [Recent.refresh, Recent.unread, Recent.caughtUp, Recent.empty, hlines]
  obtain ⟨store, recent, recordsEvicted, deleted, skipped⟩ := a
  obtain rfl : recent = .empty := h.recent
  simp only [Applied.refresh, hrefresh]

theorem Undisturbed.evict {a b : Applied} (h : Undisturbed a) {file : RecordPath × List GcUnit} (heq : a.evict file = some b) :
    Undisturbed b := by
  obtain rfl := Option.some.inj heq
  exact ⟨h.recent, (congrArg Journal.log (Store.evictFrom_shrinks a.store a.recent.uses file.1 file.2).journal).trans h.log⟩

theorem Undisturbed.delete {scan : Scan} {a b : Applied} (h : Undisturbed a) {digest : Text} (heq : a.delete scan digest = some b) :
    Undisturbed b := by
  unfold Applied.delete at heq
  split at heq
  · split at heq
    · exact Option.some.inj heq ▸ h
    split at heq
    · obtain rfl := Option.some.inj heq
      exact ⟨h.recent, h.log⟩
    · obtain rfl := Option.some.inj heq
      exact ⟨h.recent, h.log⟩
  · cases heq

/-- What is applied to a store whose journal was just rotated. -/
theorem applyPlan_eq (v : Validators) {s : Store} (hlog : s.journal.log = none) {options : GcOptions} {startedMs : Nat}
    (hs : Settled s startedMs) : ∃ store : Store,
      applyPlan v (Scan.ofStore s options startedMs) s =
        some ⟨store, .empty, (Scan.ofStore s options startedMs).report.recordsEvicted,
          (Scan.ofStore s options startedMs).report.blobsEvicted, 0⟩ ∧
      (records store).length + (Scan.ofStore s options startedMs).report.recordsEvicted = (records s).length ∧
      store.blobs.entries.length + (Scan.ofStore s options startedMs).report.blobsEvicted = s.blobs.entries.length ∧
      blobBytes store + (Scan.ofStore s options startedMs).snapshot.bytesWhere
        (· ∈ (Scan.ofStore s options startedMs).plan.selected) = blobBytes s := by
  have hquiet : Undisturbed (.start s) := ⟨rfl, hlog⟩
  have hpaths : ((Scan.ofStore s options startedMs).evictions.map (·.1)).Nodup := by
    have hid : (Scan.ofStore s options startedMs).evictions.map (·.1) =
        ((Scan.ofStore s options startedMs).evictedUnits.map (·.path)).dedup.insertionSort
          fun a b => pathComponents a ≤ pathComponents b := by
      rw [Scan.evictions, List.map_map]
      exact List.map_id _
    rw [hid]
    exact (List.perm_insertionSort _ _).nodup_iff.2 (List.nodup_dedup _)
  obtain ⟨evicted, hevict, hblobs, hjournal, hrecords⟩ := foldlM_evict _ (.start s) rfl hpaths fun file hf => removes_of_mem hs hf
  rw [sum_evictions] at hevict hrecords
  have hdeletable : ∀ digest ∈ (Scan.ofStore s options startedMs).selected, Deletable evicted startedMs digest := by
    intro digest hd
    obtain ⟨hname, file, hfile, hold⟩ := deletable_of_mem options hs hd
    exact ⟨hname, file, (congrArg (AList.lookup digest) hblobs).trans hfile, hold⟩
  obtain ⟨store, hdelete, hsame, -, hlength, hbytes⟩ := foldlM_delete (Scan.ofStore s options startedMs) _
    { Applied.start s with
      store := evicted, recordsEvicted := 0 + (Scan.ofStore s options startedMs).report.recordsEvicted } rfl
    (nodup_selected s options startedMs) hdeletable
  have hselected : (Scan.ofStore s options startedMs).selected.length =
      (Scan.ofStore s options startedMs).report.blobsEvicted := by
    rw [selected_eq, List.length_map, Plan.selected, List.length_append, List.length_map]
    rfl
  refine ⟨store, ?_, ?_, ?_, ?_⟩
  · rw [applyPlan, runBatches_eq (fun a h => h.refresh v) (fun a file b h heq => h.evict heq) (by decide) _ hquiet,
      hevict, Option.bind_some]
    have hquiet' : Undisturbed { Applied.start s with
        store := evicted, recordsEvicted := 0 + (Scan.ofStore s options startedMs).report.recordsEvicted } :=
      ⟨rfl, (congrArg Journal.log hjournal).trans hlog⟩
    refine (runBatches_eq (fun a h => h.refresh v) (fun a digest b h heq => h.delete heq) (by decide) _ hquiet').trans ?_
    rw [hdelete, hselected]
    simp [Applied.start]
  · rw [hsame]
    exact hrecords
  · rw [← hselected, hlength]
    exact congrArg (fun blobs => blobs.entries.length) hblobs
  · have hat : bytesAt evicted = bytesAt s := by
      funext digest
      rw [bytesAt, hblobs]
      rfl
    dsimp only at hbytes
    rw [hat, sum_bytesAt] at hbytes
    rw [hbytes, blobBytes, hblobs]
    rfl

/-- A collection does what the dry run of the same store reported. -/
structure Predicts (v : Validators) (s : Store) (options : GcOptions) (startedMs : Nat) (dry real : GcReport)
    (after : Store) : Prop where
  untouched : collect v s { options with dryRun := true } startedMs = some (dry, s)
  collected : collect v s { options with dryRun := false } startedMs = some (real, after)
  recordsEvicted : real.recordsEvicted = dry.recordsEvicted
  blobsEvicted : real.blobsEvicted = dry.blobsEvicted
  bytesAfter : real.bytesAfter = dry.bytesAfter
  skippedBlobs : real.skippedBlobs = 0
  /-- As many are gone from the store as are reported. -/
  records : (records after).length + dry.recordsEvicted = (Collect.records s).length
  blobs : after.blobs.entries.length + dry.blobsEvicted = s.blobs.entries.length
  bytes : blobBytes after = dry.bytesAfter

theorem rotate_log (j : Journal) : j.rotate.log = none := by
  unfold Journal.rotate
  split
  · next h => exact h
  · rfl

/-- The snapshot of a store does not depend on where its uses are. -/
theorem ofStore_rotated (s : Store) (options : GcOptions) (startedMs : Nat) :
    Scan.ofStore { s with journal := s.journal.rotate } options startedMs = Scan.ofStore s options startedMs := by
  have huses : s.journal.rotate.uses = s.journal.uses := by
    unfold Journal.rotate
    split
    · rfl
    · next file h => simp [Journal.uses, Journal.file, h, JournalFile.empty, JournalFile.uses]
  unfold Scan.ofStore
  rw [huses]
  rfl

theorem directoryBytes_eq {s : Store} (h : blobBytes s < 2 ^ 64) : directoryBytes s = blobBytes s := by
  rw [directoryBytes, Snapshot.foldl_saturatingAdd _ _ (Nat.zero_le _), Nat.zero_add]
  refine Nat.min_eq_left (Nat.le_of_lt_succ ?_)
  exact h

/-- **A dry run predicts the real run** of the same store at the same time, if
the blobs total less than `2 ^ 64` bytes. -/
theorem dryRun_predicts (v : Validators) (s : Store) (options : GcOptions) (startedMs : Nat) (hs : Settled s startedMs)
    (hfits : blobBytes s < 2 ^ 64) : ∃ dry real after, Predicts v s options startedMs dry real after := by
  have hrotated : Settled { s with journal := s.journal.rotate } startedMs := ⟨hs.names, hs.distinct, hs.old⟩
  have hscan := ofStore_rotated s { options with dryRun := false } startedMs
  obtain ⟨store, happly, hrecords, hblobs, hbytes⟩ := applyPlan_eq v (rotate_log s.journal) hrotated
  rw [hscan] at happly hrecords hblobs hbytes
  have hplan : (Scan.ofStore s { options with dryRun := true } startedMs).plan =
      (Scan.ofStore s { options with dryRun := false } startedMs).plan :=
    (plan_dryRun s options true startedMs).trans (plan_dryRun s options false startedMs).symm
  have hevicted : (Scan.ofStore s { options with dryRun := true } startedMs).report.recordsEvicted =
      (Scan.ofStore s { options with dryRun := false } startedMs).report.recordsEvicted := by
    simp only [Scan.report, planReport, hplan]
    rfl
  have hdeleted : (Scan.ofStore s { options with dryRun := true } startedMs).report.blobsEvicted =
      (Scan.ofStore s { options with dryRun := false } startedMs).report.blobsEvicted := by
    simp only [Scan.report, planReport, hplan]
  have hleft : blobBytes store = (Scan.ofStore s { options with dryRun := true } startedMs).report.bytesAfter := by
    have htotal : ((Scan.ofStore s { options with dryRun := false } startedMs).snapshot.blobs.map (·.bytes)).sum =
        blobBytes s := by
      rw [snapshot_blobs, Scan.ofStore, List.map_map]
      rfl
    have hplanned : (Scan.ofStore s { options with dryRun := false } startedMs).plan.bytesAfter = _ :=
      Plan.new_bytesAfter (built_snapshot _) _ _ (by rw [htotal, U64_MAX]; omega)
    have hsplit := (Scan.ofStore s { options with dryRun := false } startedMs).snapshot.bytesWhere_add_not
      (· ∈ (Scan.ofStore s { options with dryRun := false } startedMs).plan.selected)
    rw [htotal] at hsplit
    simp only [Scan.report, planReport, hplan]
    rw [hplanned]
    exact Nat.add_right_cancel ((hbytes.trans hsplit.symm).trans (Nat.add_comm _ _))
  have hbelow : blobBytes store < 2 ^ 64 := Nat.lt_of_le_of_lt (Nat.le_add_right _ _) (hbytes.trans_lt hfits)
  refine ⟨_, { (Scan.ofStore s { options with dryRun := false } startedMs).report with
      bytesAfter := directoryBytes store
      recordsEvicted := (Scan.ofStore s { options with dryRun := false } startedMs).report.recordsEvicted
      blobsEvicted := (Scan.ofStore s { options with dryRun := false } startedMs).report.blobsEvicted
      skippedBlobs := 0 },
    { store with
      journal := store.journal.compact (Scan.ofStore s { options with dryRun := false } startedMs).surviving },
    if_pos rfl, ?_, hevicted.symm, hdeleted.symm, (directoryBytes_eq hbelow).trans hleft, rfl,
    (congrArg _ hevicted).trans hrecords, (congrArg _ hdeleted).trans hblobs, hleft⟩
  rw [collect, if_neg (by simp)]
  dsimp only
  rw [hscan, happly]
  rfl

/-- A candidate of one artifact and empty streams, all of them blobs. -/
def publishedCandidate (artifact other : Char) : ActionCandidate where
  protocol := 1
  staticKey := List.replicate 64 'a'
  actionKey := List.replicate 64 'b'
  crateName := "dep".toList
  createdMs := 1
  files := []
  hostFiles := []
  env := []
  artifacts := [⟨"libdep.rlib".toList, List.replicate 64 artifact, false⟩]
  stdout := ⟨List.replicate 64 other, 0⟩
  stderr := ⟨List.replicate 64 other, 0⟩
  procMacros := []

/-- Its store, where nothing references the blob of one byte. -/
def publishedStore (bytes : Nat) : Store where
  blobs := (((∅ : Assoc Text Blob).insert (List.replicate 64 'c') ⟨bytes, 1, true⟩).insert (List.replicate 64 'd')
    ⟨bytes, 1, true⟩).insert (List.replicate 64 'e') ⟨1, 1, true⟩
  actions := (∅ : Assoc Text (List ActionCandidate)).insert (List.replicate 64 'a') [publishedCandidate 'c' 'd']
  declared := ∅
  archives := ∅
  journal := ⟨0, none, []⟩

def acceptAll : Validators := ⟨fun _ => true, fun _ => true, fun _ => true⟩

theorem dryRun_predicts_published :
    (∃ dry real after, Predicts acceptAll (publishedStore 10) ⟨5, false, none, none⟩ 4000000 dry real after) ∧
      (collect acceptAll (publishedStore 10) ⟨5, false, none, none⟩ 4000000).map (·.1.blobsEvicted) = some 3 :=
  ⟨dryRun_predicts acceptAll (publishedStore 10) ⟨5, false, none, none⟩ 4000000 (by decide +kernel) (by decide +kernel),
    by decide +kernel⟩

/-- Two blobs of `2 ^ 63` bytes: the total saturates, and what the dry run
takes off it is not taken off what is left. -/
theorem dryRun_not_predicts : ¬ ∀ (v : Validators) (s : Store) (options : GcOptions) (startedMs : Nat),
    Settled s startedMs → ∃ dry real after, Predicts v s options startedMs dry real after := by
  intro h
  obtain ⟨dry, real, after, hp⟩ := h acceptAll (publishedStore (2 ^ 63)) ⟨U64_MAX, false, none, none⟩ 4000000
    (by decide +kernel)
  have hdry := congrArg (Option.map (·.1.bytesAfter)) hp.untouched
  have hreal := congrArg (Option.map (·.1.bytesAfter)) hp.collected
  have hdiffer : (collect acceptAll (publishedStore (2 ^ 63)) ⟨U64_MAX, true, none, none⟩ 4000000).map (·.1.bytesAfter) ≠
      (collect acceptAll (publishedStore (2 ^ 63)) ⟨U64_MAX, false, none, none⟩ 4000000).map (·.1.bytesAfter) := by
    decide +kernel
  refine hdiffer (hdry.trans (Eq.trans ?_ hreal.symm))
  exact congrArg some hp.bytesAfter.symm

end Bellows.Collect
