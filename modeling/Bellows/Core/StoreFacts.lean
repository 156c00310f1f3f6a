/-
What each operation on the store leaves of its blobs and records.

Only the removal of a blob takes an intact one away (`hasBlob`), and only the
two puts add records (`Holds`); a refresh notes the blobs of every candidate
that the new lines of the journal name (`Recent.refresh_notes`).
-/
import Mathlib.Data.List.Dedup
import Bellows.Core.Store

namespace Bellows.Core

namespace Store

variable {v : Validators} {s : Store}

/-- The store has the record, in the file of its key or name. -/
def Holds (s : Store) (r : Record) : Prop := r ∈ s.recordsAt r.path

/-- Every blob of the record is there, intact. -/
def AllPresent (s : Store) (r : Record) : Prop := ∀ digest ∈ r.digests, s.hasBlob digest = true

instance (s : Store) (r : Record) : Decidable (s.AllPresent r) :=
  inferInstanceAs (Decidable (∀ digest ∈ r.digests, s.hasBlob digest = true))

@[simp] theorem holds_candidate {c : ActionCandidate} :
    s.Holds (.candidate c) ↔ ∃ index, s.actions.lookup c.staticKey = some index ∧ c ∈ index := by
  cases h : s.actions.lookup c.staticKey <;> simp [Holds, Record.path, recordsAt, h]

@[simp] theorem holds_declared {r : DeclaredActionRecord} :
    s.Holds (.declared r) ↔ ∃ ms, s.declared.lookup r.key = some (r, ms) := by
  cases h : s.declared.lookup r.key with
  | none => simp [Holds, Record.path, recordsAt, h]
  | some file => simp [Holds, Record.path, recordsAt, h, Prod.ext_iff, eq_comm]

@[simp] theorem holds_archive {m : ArchiveManifest} :
    s.Holds (.archive m) ↔ ∃ ms, s.archives.lookup m.name = some (m, ms) := by
  cases h : s.archives.lookup m.name with
  | none => simp [Holds, Record.path, recordsAt, h]
  | some file => simp [Holds, Record.path, recordsAt, h, Prod.ext_iff, eq_comm]

/-- The file of a record that is held is listed. -/
theorem path_mem_paths {r : Record} (h : s.Holds r) : r.path ∈ s.paths r.path.directory := by
  have hkeys : ∀ {υ : Type} {m : Assoc Text υ} {k x}, m.lookup k = some x → k ∈ m.keys := fun hl =>
    AList.mem_keys.1 (AList.lookup_isSome.1 (by rw [hl]; rfl))
  cases r with
  | candidate c =>
    obtain ⟨index, hi, -⟩ := holds_candidate.1 h
    exact List.mem_map.2 ⟨_, hkeys hi, rfl⟩
  | declared r =>
    obtain ⟨ms, hm⟩ := holds_declared.1 h
    exact List.mem_map.2 ⟨_, hkeys hm, rfl⟩
  | archive m =>
    obtain ⟨ms, hm⟩ := holds_archive.1 h
    exact List.mem_map.2 ⟨_, hkeys hm, rfl⟩

/-- Each directory has its own kind of record. -/
theorem directory_of_mem {path : RecordPath} {r : Record} (h : r ∈ s.recordsAt path) :
    r.path.directory = path.directory := by
  cases path with
  | action key =>
    obtain ⟨c, -, rfl⟩ := List.mem_map.1 h
    rfl
  | archive name =>
    obtain ⟨m, -, rfl⟩ := Option.map_eq_some_iff.1 (Option.mem_toList.1 h)
    rfl
  | declared key =>
    obtain ⟨r, -, rfl⟩ := Option.map_eq_some_iff.1 (Option.mem_toList.1 h)
    rfl

/-! ## Blobs -/

theorem hasBlob_insert (digest d : Text) (blob : Blob) :
    Store.hasBlob { s with blobs := s.blobs.insert digest blob } d =
      if d = digest then blob.intact else s.hasBlob d := by
  simp only [hasBlob, Assoc.lookup_insert_eq_ite]
  split <;> simp

theorem hasBlob_placeBlob (digest : Text) (bytes now : Nat) {d : Text} (h : s.hasBlob d = true) :
    (s.placeBlob digest bytes now).hasBlob d = true := by
  rw [placeBlob, hasBlob_insert]
  split <;> simp [h]

theorem hasBlob_touchBlob (digest : Text) (now : Nat) (d : Text) :
    ((s.touchBlob digest now).getD s).hasBlob d = s.hasBlob d := by
  unfold touchBlob
  cases hb : s.blobs.lookup digest with
  | none => rfl
  | some blob =>
    rw [Option.map_some, Option.getD_some, hasBlob_insert]
    split
    · next h => rw [h, hasBlob, hb, Option.any_some]
    · rfl

theorem hasBlob_removeBlob {digest d : Text} (h : d ≠ digest) : (s.removeBlob digest).hasBlob d = s.hasBlob d := by
  rw [hasBlob, removeBlob, Assoc.lookup_erase_eq_ite, if_neg h]
  rfl

theorem hasBlob_removeBlob_self (digest : Text) : (s.removeBlob digest).hasBlob digest = false := by
  rw [hasBlob, removeBlob, AList.lookup_erase]
  rfl

@[simp] theorem recordsAt_placeBlob (digest : Text) (bytes now : Nat) :
    (s.placeBlob digest bytes now).recordsAt = s.recordsAt := rfl

@[simp] theorem recordsAt_removeBlob (digest : Text) : (s.removeBlob digest).recordsAt = s.recordsAt := rfl

@[simp] theorem recordsAt_touchBlob (digest : Text) (now : Nat) :
    ((s.touchBlob digest now).getD s).recordsAt = s.recordsAt := by
  unfold touchBlob
  cases s.blobs.lookup digest <;> rfl

@[simp] theorem journal_touchBlob (digest : Text) (now : Nat) :
    ((s.touchBlob digest now).getD s).journal = s.journal := by
  unfold touchBlob
  cases s.blobs.lookup digest <;> rfl

/-! ## Records -/

@[simp] theorem blobs_remove (path : RecordPath) : (s.remove path).blobs = s.blobs := by cases path <;> rfl

@[simp] theorem journal_remove (path : RecordPath) : (s.remove path).journal = s.journal := by cases path <;> rfl

/-- `t` is `s` with some records taken away. -/
structure Shrinks (s t : Store) : Prop where
  blobs : t.blobs = s.blobs
  journal : t.journal = s.journal
  holds : ∀ r, t.Holds r → s.Holds r

theorem Shrinks.refl (s : Store) : s.Shrinks s := ⟨rfl, rfl, fun _ => id⟩

theorem Shrinks.trans {s t u : Store} (h : s.Shrinks t) (h' : t.Shrinks u) : s.Shrinks u :=
  ⟨h'.blobs.trans h.blobs, h'.journal.trans h.journal, fun r hr => h.holds r (h'.holds r hr)⟩

theorem Shrinks.hasBlob {s t : Store} (h : s.Shrinks t) (digest : Text) : t.hasBlob digest = s.hasBlob digest := by
  rw [Store.hasBlob, h.blobs]
  rfl

theorem remove_shrinks (s : Store) (path : RecordPath) : s.Shrinks (s.remove path) := by
  refine ⟨blobs_remove path, journal_remove path, fun r hr => ?_⟩
  cases path with
  | action key =>
    cases r with
    | candidate c =>
      obtain ⟨index, hi, hc⟩ := holds_candidate.1 hr
      simp only [remove, Assoc.lookup_erase_eq_ite] at hi
      split at hi
      · cases hi
      · exact holds_candidate.2 ⟨index, hi, hc⟩
    | declared r => exact hr
    | archive m => exact hr
  | archive name =>
    cases r with
    | candidate c => exact hr
    | declared r => exact hr
    | archive m =>
      obtain ⟨ms, hm⟩ := holds_archive.1 hr
      simp only [remove, Assoc.lookup_erase_eq_ite] at hm
      split at hm
      · cases hm
      · exact holds_archive.2 ⟨ms, hm⟩
  | declared key =>
    cases r with
    | candidate c => exact hr
    | declared r =>
      obtain ⟨ms, hm⟩ := holds_declared.1 hr
      simp only [remove, Assoc.lookup_erase_eq_ite] at hm
      split at hm
      · cases hm
      · exact holds_declared.2 ⟨ms, hm⟩
    | archive m => exact hr

/-- A removed file's records are gone. -/
theorem not_holds_remove (s : Store) (r : Record) : ¬ (s.remove r.path).Holds r := by
  cases r <;> simp [remove, Record.path]

/-- `t` is `s` but for the index of one key. -/
theorem holds_insert_action {key : Text} {index : List ActionCandidate} {r : Record}
    (h : Store.Holds { s with actions := s.actions.insert key index } r) :
    s.Holds r ∨ ∃ c ∈ index, r = .candidate c ∧ c.staticKey = key := by
  cases r with
  | candidate c =>
    obtain ⟨index', hi, hc⟩ := holds_candidate.1 h
    simp only [Assoc.lookup_insert_eq_ite] at hi
    split at hi
    · next hk =>
      cases hi
      exact .inr ⟨c, hc, rfl, hk⟩
    · exact .inl (holds_candidate.2 ⟨index', hi, hc⟩)
  | declared r => exact .inl h
  | archive m => exact .inl h

theorem readCandidates_shrinks (v : Validators) (s : Store) (key : Text) :
    s.Shrinks (s.readCandidates v key).2 := by
  unfold readCandidates
  split
  · exact .refl s
  split
  · exact .refl s
  · exact remove_shrinks s (.action key)

/-- What an index read back says of the candidates of its key that are still there. -/
theorem readCandidates_spec {key : Text} {c : ActionCandidate} (hk : c.staticKey = key)
    (h : (s.readCandidates v key).2.Holds (.candidate c)) :
    ∃ index, (s.readCandidates v key).1 = some index ∧ c ∈ index := by
  subst hk
  revert h
  unfold readCandidates
  split
  · next hl => intro h; obtain ⟨_, hi, -⟩ := holds_candidate.1 h; rw [hl] at hi; cases hi
  · next index hl =>
    split
    · intro h
      obtain ⟨index', hi, hc⟩ := holds_candidate.1 h
      rw [hl] at hi
      cases hi
      exact ⟨index, rfl, hc⟩
    · exact fun h => absurd h (not_holds_remove s (.candidate c))

/-- A candidate of an index read is accepted, and it is in the index of its key. -/
theorem readCandidates_eq_some {key : Text} {index : List ActionCandidate}
    (h : (s.readCandidates v key).1 = some index) {c : ActionCandidate} (hc : c ∈ index) :
    v.candidate c = true ∧ c.staticKey = key ∧ s.Holds (.candidate c) := by
  unfold readCandidates at h
  split at h
  · cases h
    cases hc
  next index' hl =>
  split at h
  · next hi =>
    cases h
    simp only [validIndex, Bool.and_eq_true, List.all_eq_true, beq_iff_eq] at hi
    obtain ⟨hv, hk⟩ := hi.2 c hc
    exact ⟨hv, hk, holds_candidate.2 ⟨index, by rw [hk, hl], hc⟩⟩
  · cases h

/-- The put adds its candidate, and nothing else. -/
theorem writeCandidate_spec {maxCandidates : Nat} {c : ActionCandidate} {ok : Bool} {t : Store}
    (h : s.writeCandidate v maxCandidates c = (ok, t)) :
    t.blobs = s.blobs ∧ t.journal = s.journal ∧
      ∀ r, t.Holds r → s.Holds r ∨ ok = true ∧ r = .candidate c := by
  unfold writeCandidate at h
  have hs := readCandidates_shrinks v s c.staticKey
  split at h
  · next s' hr =>
    rw [hr] at hs
    obtain ⟨rfl, rfl⟩ := Prod.mk.inj h
    exact ⟨hs.blobs, hs.journal, fun r hh => .inl (hs.holds r hh)⟩
  · next index s' hr =>
    rw [hr] at hs
    obtain ⟨rfl, rfl⟩ := Prod.mk.inj h
    refine ⟨hs.blobs, hs.journal, fun r hh => ?_⟩
    rcases holds_insert_action hh with hh | ⟨c', hc', rfl, hk⟩
    · exact .inl (hs.holds r hh)
    · rcases List.mem_cons.1 (List.mem_of_mem_take hc') with rfl | hc'
      · exact .inr ⟨rfl, rfl⟩
      · left
        have hm := (List.mem_filter.1 hc').1
        unfold readCandidates at hr
        split at hr
        · cases hr
          cases hm
        · next index' hl =>
          split at hr
          · cases hr
            exact holds_candidate.2 ⟨index, by rw [hk, hl], hm⟩
          · cases hr

theorem readDeclared_shrinks (v : Validators) (s : Store) (key : Text) : s.Shrinks (s.readDeclared v key).2 := by
  unfold readDeclared
  split
  · exact .refl s
  split
  · exact .refl s
  · exact remove_shrinks s (.declared key)

theorem readArchive_shrinks (v : Validators) (s : Store) (name : Text) : s.Shrinks (s.readArchive v name).2 := by
  unfold readArchive
  split
  · exact .refl s
  split
  · exact .refl s
  · exact remove_shrinks s (.archive name)

/-- There is no file, and reading changes nothing. -/
theorem readDeclared_eq_none {key : Text} {t : Store} (h : s.readDeclared v key = (some none, t)) :
    s.declared.lookup key = none ∧ t = s := by
  unfold readDeclared at h
  split at h
  · next hl => exact ⟨hl, (Prod.mk.inj h).2.symm⟩
  split at h <;> cases h

theorem readArchive_eq_none {name : Text} {t : Store} (h : s.readArchive v name = (some none, t)) :
    s.archives.lookup name = none ∧ t = s := by
  unfold readArchive at h
  split at h
  · next hl => exact ⟨hl, (Prod.mk.inj h).2.symm⟩
  split at h <;> cases h

/-- A record read is accepted, and it is in the file of its key. -/
theorem readDeclared_eq_some {key : Text} {r : DeclaredActionRecord}
    (h : (s.readDeclared v key).1 = some (some r)) : v.declared r = true ∧ s.Holds (.declared r) := by
  unfold readDeclared at h
  split at h
  · cases h
  next file hl =>
  split at h
  · next hv =>
    rw [Bool.and_eq_true, beq_iff_eq] at hv
    cases h
    exact ⟨hv.1, holds_declared.2 ⟨file.2, by rw [hv.2, hl]⟩⟩
  · cases h

theorem readArchive_eq_some {name : Text} {m : ArchiveManifest}
    (h : (s.readArchive v name).1 = some (some m)) : v.archive m = true ∧ s.Holds (.archive m) := by
  unfold readArchive at h
  split at h
  · cases h
  next file hl =>
  split at h
  · next hv =>
    rw [Bool.and_eq_true, beq_iff_eq] at hv
    cases h
    exact ⟨hv.1, holds_archive.2 ⟨file.2, by rw [hv.2, hl]⟩⟩
  · cases h

theorem readDeclared_of_holds {r : DeclaredActionRecord} (hv : v.declared r = true)
    (h : s.Holds (.declared r)) : (s.readDeclared v r.key).1 = some (some r) := by
  obtain ⟨ms, hl⟩ := holds_declared.1 h
  simp [readDeclared, hl, hv]

theorem readArchive_of_holds {m : ArchiveManifest} (hv : v.archive m = true)
    (h : s.Holds (.archive m)) : (s.readArchive v m.name).1 = some (some m) := by
  obtain ⟨ms, hl⟩ := holds_archive.1 h
  simp [readArchive, hl, hv]

theorem writeDeclared_spec (v : Validators) (s : Store) (r : DeclaredActionRecord) (now : Nat) :
    (s.writeDeclared v r now).blobs = s.blobs ∧ (s.writeDeclared v r now).journal = s.journal ∧
      ∀ r', (s.writeDeclared v r now).Holds r' →
        s.Holds r' ∨ r' = .declared r ∧ s.declared.lookup r.key = none := by
  have hs := readDeclared_shrinks v s r.key
  unfold writeDeclared
  split
  · next hr =>
    obtain ⟨hl, rfl⟩ := readDeclared_eq_none hr
    refine ⟨rfl, rfl, fun r' hr' => ?_⟩
    cases r' with
    | declared r' =>
      obtain ⟨ms, hm⟩ := holds_declared.1 hr'
      simp only [Assoc.lookup_insert_eq_ite] at hm
      split at hm
      · obtain ⟨rfl, -⟩ := Prod.mk.inj (Option.some.inj hm)
        exact .inr ⟨rfl, hl⟩
      · exact .inl (holds_declared.2 ⟨ms, hm⟩)
    | candidate c => exact .inl hr'
    | archive m => exact .inl hr'
  · next hr =>
    rw [hr] at hs
    exact ⟨hs.blobs, hs.journal, fun r' hr' => .inl (hs.holds r' hr')⟩

theorem writeArchive_spec (v : Validators) (s : Store) (m : ArchiveManifest) (now : Nat) :
    (s.writeArchive v m now).blobs = s.blobs ∧ (s.writeArchive v m now).journal = s.journal ∧
      ∀ r, (s.writeArchive v m now).Holds r →
        s.Holds r ∨ r = .archive m ∧ s.archives.lookup m.name = none := by
  have hs := readArchive_shrinks v s m.name
  unfold writeArchive
  split
  · next hr =>
    obtain ⟨hl, rfl⟩ := readArchive_eq_none hr
    refine ⟨rfl, rfl, fun r hr => ?_⟩
    cases r with
    | archive m' =>
      obtain ⟨ms, hm⟩ := holds_archive.1 hr
      simp only [Assoc.lookup_insert_eq_ite] at hm
      split at hm
      · obtain ⟨rfl, -⟩ := Prod.mk.inj (Option.some.inj hm)
        exact .inr ⟨rfl, hl⟩
      · exact .inl (holds_archive.2 ⟨ms, hm⟩)
    | candidate c => exact .inl hr
    | declared r => exact .inl hr
  · next hr =>
    rw [hr] at hs
    exact ⟨hs.blobs, hs.journal, fun r hr => .inl (hs.holds r hr)⟩

/-! ### What a put writes -/

/-- Whether a put of the record writes it: it is accepted, an index can be
read, and no other record's file is in its place. -/
def admits (v : Validators) (s : Store) : Record → Bool
  | .candidate c => v.candidate c && (s.readCandidates v c.staticKey).1.isSome
  | .declared r => v.declared r && (s.declared.lookup r.key).isNone
  | .archive m => v.archive m && (s.archives.lookup m.name).isNone

theorem accepts_of_admits {r : Record} (h : s.admits v r = true) : v.accepts r = true := by
  cases r <;> exact (Bool.and_eq_true_iff.1 h).1

theorem mem_updatedIndex (maxCandidates : Nat) (c : ActionCandidate) (index : List ActionCandidate) :
    c ∈ updatedIndex maxCandidates c index := by
  obtain ⟨n, hn⟩ : ∃ n, max maxCandidates 1 = n + 1 := ⟨max maxCandidates 1 - 1, by omega⟩
  simp [updatedIndex, hn]

theorem readCandidates_writeCandidate (maxCandidates : Nat) (hmax : maxCandidates ≤ 1024) {c : ActionCandidate}
    (h : s.admits v (.candidate c) = true) :
    ∃ t index, s.writeCandidate v maxCandidates c = (true, t) ∧ t.blobs = s.blobs ∧
      (t.readCandidates v c.staticKey).1 = some index ∧ c ∈ index := by
  obtain ⟨hv, hr⟩ := Bool.and_eq_true_iff.1 h
  have hs := readCandidates_shrinks v s c.staticKey
  have hvalid : ∀ index s', s.readCandidates v c.staticKey = (some index, s') →
      validIndex v c.staticKey (updatedIndex maxCandidates c index) = true := by
    intro index s' hread
    have hall : ∀ other ∈ index, v.candidate other = true ∧ other.staticKey = c.staticKey := by
      unfold readCandidates at hread
      split at hread
      · cases hread
        simp
      split at hread
      · next hi =>
        cases hread
        simp only [validIndex, Bool.and_eq_true, List.all_eq_true, beq_iff_eq] at hi
        exact hi.2
      · cases hread
    simp only [validIndex, Bool.and_eq_true, List.all_eq_true, beq_iff_eq, decide_eq_true_eq]
    constructor
    · rw [updatedIndex, List.length_take]
      omega
    · intro other hother
      rcases List.mem_cons.1 (List.mem_of_mem_take hother) with rfl | hother
      · exact ⟨hv, rfl⟩
      · exact hall other (List.mem_filter.1 hother).1
  unfold writeCandidate
  split
  · next s' hread => rw [hread] at hr; cases hr
  · next index s' hread =>
    rw [hread] at hs
    refine ⟨_, updatedIndex maxCandidates c index, rfl, hs.blobs, ?_, mem_updatedIndex maxCandidates c index⟩
    simp only [readCandidates, AList.lookup_insert, hvalid index s' hread, if_true]

theorem admits_of_writeCandidate {maxCandidates : Nat} {c : ActionCandidate} (hv : v.candidate c = true) {t : Store}
    (h : s.writeCandidate v maxCandidates c = (true, t)) : s.admits v (.candidate c) = true := by
  unfold writeCandidate at h
  split at h
  · cases h
  · next hr => simp only [admits, hv, hr, Option.isSome_some, Bool.and_self]

theorem holds_writeCandidate (maxCandidates : Nat) {c : ActionCandidate} (h : s.admits v (.candidate c) = true) :
    ∃ t, s.writeCandidate v maxCandidates c = (true, t) ∧ t.Holds (.candidate c) := by
  have hr := (Bool.and_eq_true_iff.1 h).2
  unfold writeCandidate
  split
  · next s' hread => rw [hread] at hr; cases hr
  · next index s' hread =>
    exact ⟨_, rfl, holds_candidate.2 ⟨_, AList.lookup_insert _, mem_updatedIndex maxCandidates c index⟩⟩

theorem holds_writeDeclared {r : DeclaredActionRecord} (h : s.admits v (.declared r) = true) (now : Nat) :
    (s.writeDeclared v r now).Holds (.declared r) := by
  have hl := Option.isNone_iff_eq_none.1 (Bool.and_eq_true_iff.1 h).2
  refine holds_declared.2 ⟨now, ?_⟩
  simp only [writeDeclared, readDeclared, hl, AList.lookup_insert]

theorem holds_writeArchive {m : ArchiveManifest} (h : s.admits v (.archive m) = true) (now : Nat) :
    (s.writeArchive v m now).Holds (.archive m) := by
  have hl := Option.isNone_iff_eq_none.1 (Bool.and_eq_true_iff.1 h).2
  refine holds_archive.2 ⟨now, ?_⟩
  simp only [writeArchive, readArchive, hl, AList.lookup_insert]

/-! ### What a put answers -/

theorem putArchive_store (m : ArchiveManifest) (now : Nat) :
    (s.putArchive v m now).2 = if v.archive m then s.writeArchive v m now else s := by
  unfold putArchive writeArchive
  split
  · rcases s.readArchive v m.name with ⟨_ | _ | _, s'⟩ <;> rfl
  · rfl

theorem readDeclared_vacant {key : Text} (h : s.declared.lookup key = none) :
    s.readDeclared v key = (some none, s) := by
  rw [readDeclared, h]

theorem readDeclared_taken {key : Text} {r : DeclaredActionRecord} {ms : Nat}
    (h : s.declared.lookup key = some (r, ms)) (hv : v.declared r = true) (hk : r.key = key) :
    s.readDeclared v key = (some (some r), s) := by
  simp [readDeclared, h, hv, hk]

theorem lookup_readDeclared_ne {key key' : Text} (h : key' ≠ key) :
    (s.readDeclared v key).2.declared.lookup key' = s.declared.lookup key' := by
  unfold readDeclared
  split
  · rfl
  split
  · rfl
  · exact AList.lookup_erase_ne h

theorem putDeclared_vacant {r : DeclaredActionRecord} (now : Nat) (hv : v.declared r = true)
    (h : s.declared.lookup r.key = none) :
    s.putDeclared v r now = (.ok true, { s with declared := s.declared.insert r.key (r, now) }) := by
  rw [putDeclared, if_pos hv, readDeclared_vacant h]

theorem putDeclared_taken {r existing : DeclaredActionRecord} {ms : Nat} (now : Nat) (hv : v.declared r = true)
    (h : s.declared.lookup r.key = some (existing, ms)) (he : v.declared existing = true)
    (hk : existing.key = r.key) :
    s.putDeclared v r now = (if existing = r then .ok false else .error .conflict, s) := by
  rw [putDeclared, if_pos hv, readDeclared_taken h he hk]

theorem lookup_putDeclared_ne {r : DeclaredActionRecord} {key : Text} (now : Nat) (h : key ≠ r.key) :
    (s.putDeclared v r now).2.declared.lookup key = s.declared.lookup key := by
  have hread := lookup_readDeclared_ne (v := v) (s := s) h
  unfold putDeclared
  split
  · split
    · next he => rw [he] at hread; exact hread
    · next he => rw [he] at hread; exact hread
    · next he =>
      rw [he] at hread
      exact (AList.lookup_insert_ne h).trans hread
  · rfl

/-! ## Evictions -/

theorem evictFrom_shrinks (s : Store) (uses : List (Text × Text)) (path : RecordPath) (units : List GcUnit) :
    s.Shrinks (s.evictFrom uses path units) := by
  unfold evictFrom
  split
  · exact remove_shrinks s path
  split
  · next key =>
    split
    · exact .refl s
    next index hl =>
    dsimp only
    split
    · exact .refl s
    split
    · exact remove_shrinks s _
    · refine ⟨rfl, rfl, fun r hr => ?_⟩
      rcases holds_insert_action hr with hr | ⟨c, hc, rfl, hk⟩
      · exact hr
      · exact holds_candidate.2 ⟨index, by rw [hk, hl], (List.mem_filter.1 hc).1⟩
  · exact .refl s

/-- A candidate that survives an eviction was not to be evicted, or was used. -/
theorem not_evicts_of_holds {uses : List (Text × Text)} {units : List GcUnit} {c : ActionCandidate}
    (h : (s.evictFrom uses (.action c.staticKey) units).Holds (.candidate c)) :
    ∀ unit ∈ units, evicts uses c unit = false := by
  revert h
  unfold evictFrom
  split
  · exact fun h => absurd h (not_holds_remove s (.candidate c))
  dsimp only
  cases hl : s.actions.lookup c.staticKey with
  | none => intro h; obtain ⟨_, hi, -⟩ := holds_candidate.1 h; rw [hl] at hi; cases hi
  | some index =>
    intro h
    have hkept : c ∈ index.filter fun c => !units.any (evicts uses c) := by
      dsimp only at h
      split at h
      · next hlen =>
        obtain ⟨index', hi, hc⟩ := holds_candidate.1 h
        rw [hl] at hi
        cases hi
        rw [List.length_filter_eq_length_iff] at hlen
        exact List.mem_filter.2 ⟨hc, hlen c hc⟩
      split at h
      · exact absurd h (not_holds_remove s (.candidate c))
      · obtain ⟨index', hi, hc⟩ := holds_candidate.1 h
        rw [AList.lookup_insert] at hi
        cases hi
        exact hc
    intro unit hu
    have hany := (List.mem_filter.1 hkept).2
    rw [Bool.not_eq_true', List.any_eq_false] at hany
    simpa using hany unit hu

end Store

/-! ## Recent uses -/

namespace Recent

open Store

variable {v : Validators}

theorem readIndex_shrinks (v : Validators) (failing : List Text) (r : Recent × Store) (key : Text) :
    r.2.Shrinks (readIndex v failing r key).2 := by
  have hs := readCandidates_shrinks v r.2 key
  unfold readIndex
  split
  · exact .refl _
  split
  · next hr => rwa [hr] at hs
  · next hr => rwa [hr] at hs

theorem readIndex_keeps (v : Validators) (failing : List Text) (r : Recent × Store) (key : Text) :
    (readIndex v failing r key).1.offset = r.1.offset ∧ (readIndex v failing r key).1.uses = r.1.uses ∧
      ∀ d ∈ r.1.blobs, d ∈ (readIndex v failing r key).1.blobs := by
  unfold readIndex
  split
  · exact ⟨rfl, rfl, fun _ => id⟩
  split
  · exact ⟨rfl, rfl, fun _ => id⟩
  · exact ⟨rfl, rfl, fun d hd => List.mem_append_left _ hd⟩

/-- An index read notes the blobs of its candidates. -/
theorem readIndex_notes {failing : List Text} {r : Recent × Store} {c : ActionCandidate} (hreads : c.staticKey ∉ failing)
    (h : (readIndex v failing r c.staticKey).2.Holds (.candidate c)) :
    ∀ d ∈ (Record.candidate c).digests, d ∈ (readIndex v failing r c.staticKey).1.blobs := by
  intro d hd
  have hspec : (r.2.readCandidates v c.staticKey).2.Holds (.candidate c) →
      ∃ index, (r.2.readCandidates v c.staticKey).1 = some index ∧ c ∈ index := readCandidates_spec rfl
  unfold readIndex at h ⊢
  rw [if_neg hreads] at h ⊢
  split at h
  · next hr =>
    rw [hr] at hspec
    obtain ⟨_, hi, -⟩ := hspec h
    cases hi
  · next index s hr =>
    rw [hr] at hspec
    obtain ⟨index', hi, hc⟩ := hspec h
    cases hi
    exact List.mem_append_right _ (List.mem_flatMap.2 ⟨c, hc, hd⟩)

theorem foldl_readIndex (v : Validators) (failing : List Text) : ∀ (keys : List Text) (r : Recent × Store),
    r.2.Shrinks (keys.foldl (readIndex v failing) r).2 ∧
      (keys.foldl (readIndex v failing) r).1.offset = r.1.offset ∧
      (keys.foldl (readIndex v failing) r).1.uses = r.1.uses ∧
      (∀ d ∈ r.1.blobs, d ∈ (keys.foldl (readIndex v failing) r).1.blobs) ∧
      ∀ c : ActionCandidate, c.staticKey ∈ keys → c.staticKey ∉ failing →
        (keys.foldl (readIndex v failing) r).2.Holds (.candidate c) →
          ∀ d ∈ (Record.candidate c).digests, d ∈ (keys.foldl (readIndex v failing) r).1.blobs
  | [], r => ⟨.refl _, rfl, rfl, fun _ => id, by simp⟩
  | key :: keys, r => by
    obtain ⟨hs, ho, hu, hb, hn⟩ := foldl_readIndex v failing keys (readIndex v failing r key)
    obtain ⟨ho', hu', hb'⟩ := readIndex_keeps v failing r key
    refine ⟨(readIndex_shrinks v failing r key).trans hs, ho.trans ho', hu.trans hu', fun d hd => hb d (hb' d hd), ?_⟩
    intro c hc hreads hh d hd
    rcases List.mem_cons.1 hc with rfl | hc
    · exact hb d (readIndex_notes hreads (hs.holds _ hh) d hd)
    · exact hn c hc hreads hh d hd

variable {failing : List Text} {r : Recent} {s : Store}

theorem refresh_spec (v : Validators) (failing : List Text) (r : Recent) (s : Store) :
    s.Shrinks (r.refresh v failing s).2 ∧ (r.refresh v failing s).1.offset = s.journal.lines.length ∧
      (r.refresh v failing s).1.uses = r.uses ++ (r.unread s).map (fun use => (use.staticKey, use.actionKey)) ∧
      ∀ d ∈ r.blobs, d ∈ (r.refresh v failing s).1.blobs := by
  obtain ⟨hs, ho, hu, hb, -⟩ := foldl_readIndex v failing ((r.unread s).map (·.staticKey)).dedup (r.caughtUp s, s)
  exact ⟨hs, ho, hu, hb⟩

/-- **A refresh notes what the journal named**: the blobs of every candidate
still there whose key is in a new line, and whose index could be read. -/
theorem refresh_notes {c : ActionCandidate} {use : Use} (hu : use ∈ r.unread s)
    (hk : use.staticKey = c.staticKey) (hreads : c.staticKey ∉ failing)
    (h : (r.refresh v failing s).2.Holds (.candidate c)) :
    ∀ d ∈ (Record.candidate c).digests, d ∈ (r.refresh v failing s).1.blobs :=
  (foldl_readIndex v failing _ (r.caughtUp s, s)).2.2.2.2 c (List.mem_dedup.2 (List.mem_map.2 ⟨use, hu, hk⟩)) hreads h

end Recent

end Bellows.Core
