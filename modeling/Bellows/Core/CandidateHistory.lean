/-
What a history of puts leaves of a static key's candidates: the index is the
newest candidates of the history, as many as may be (`Indexes`), and a reader
takes it if it has no more than 1024.
-/
import Bellows.Core.PutCandidate
import Bellows.Lib.Newest

namespace Bellows.Core

open Prog Store Put Newest

/-! ## Histories -/

/-- No operation fails. -/
def noFaults : PutOp → Bool := fun _ => false

/-- A put that succeeds. -/
def putOk (v : Validators) (maxCandidates : Nat) (s : Store) (put : ActionCandidate × Nat) : Option Store :=
  match outcome (putCandidate v noFaults maxCandidates put.1 put.2) s with
  | (.ok (), t) => some t
  | (.error _, _) => none

/-- Puts one after the other, each with its time, all of which succeed. -/
def putAll (v : Validators) (maxCandidates : Nat) (s : Store) (puts : List (ActionCandidate × Nat)) : Option Store :=
  puts.foldlM (putOk v maxCandidates) s

/-- The candidates put, the newest first. -/
def newestFirst (puts : List (ActionCandidate × Nat)) : List ActionCandidate := (puts.map (·.1)).reverse

variable {v : Validators} {maxCandidates : Nat} {s t : Store}

theorem stopsEarly_noFaults {c : ActionCandidate} : StopsEarly v noFaults s c ↔
    v.candidate c = false ∨ ∃ index ∈ s.actions.lookup c.staticKey, validIndex v c.staticKey index = false := by
  simp [StopsEarly, noFaults]

/-- Where nothing fails, a put fails only by what does not validate. -/
theorem putCandidate_noFaults (v : Validators) (maxCandidates : Nat) (c : ActionCandidate) (now : Nat) (s : Store) :
    Ensures (putCandidate v noFaults maxCandidates c now) s fun r _ => r = .ok () ↔ ¬ StopsEarly v noFaults s c := by
  unfold putCandidate
  refine (prepare_spec v noFaults maxCandidates c s).bind (fun e t h => ?_) fun index t h => ?_
  · exact iff_of_false (by simp) fun hlate => hlate h.1
  · obtain ⟨rfl, -, hrename⟩ := h
    have hlate : ¬ StopsEarly v noFaults t c := fun hearly => by
      have htrue := hrename.1 hearly
      cases htrue
    exact iff_of_true rfl hlate

theorem putOk_eq_some {put : ActionCandidate × Nat} (h : putOk v maxCandidates s put = some t) :
    ¬ StopsEarly v noFaults s put.1 ∧ t.actions = s.actions.insert put.1.staticKey
      (updatedIndex maxCandidates put.1 ((s.actions.lookup put.1.staticKey).getD [])) := by
  have hok := putCandidate_noFaults v maxCandidates put.1 put.2 s
  have hspec := putCandidate_spec v noFaults maxCandidates put.1 put.2 s
  unfold Ensures at hok hspec
  unfold putOk at h
  split at h
  · next u hout =>
    obtain rfl := Option.some.inj h
    rw [hout] at hok hspec
    have hlate := hok.1 rfl
    exact ⟨hlate, hspec.2 hlate⟩
  · cases h

theorem exists_putOk {put : ActionCandidate × Nat} (h : ¬ StopsEarly v noFaults s put.1) :
    ∃ t, putOk v maxCandidates s put = some t := by
  have hok := putCandidate_noFaults v maxCandidates put.1 put.2 s
  unfold Ensures at hok
  unfold putOk
  split
  · next u hout => exact ⟨u, rfl⟩
  · next e u hout =>
    rw [hout] at hok
    have hcontra := hok.2 h
    cases hcontra

/-! ## The index -/

/-- The index of a key, none being empty; it holds candidates of that key that
validate. -/
structure Indexes (v : Validators) (key : Text) (s : Store) (index : List ActionCandidate) : Prop where
  lookup : (s.actions.lookup key).getD [] = index
  valid : ∀ c ∈ index, v.candidate c = true ∧ c.staticKey = key

variable {key : Text}

theorem Indexes.stopsEarly_iff {index : List ActionCandidate} (h : Indexes v key s index) {c : ActionCandidate}
    (hkey : c.staticKey = key) : StopsEarly v noFaults s c ↔ v.candidate c = false ∨ 1024 < index.length := by
  rw [stopsEarly_noFaults, hkey]
  refine or_congr_right ?_
  have hlookup := h.lookup
  cases hl : s.actions.lookup key with
  | none =>
    rw [hl] at hlookup
    simp [← hlookup]
  | some found =>
    rw [hl, Option.getD_some] at hlookup
    subst hlookup
    simp [validIndex_eq h.valid]

/-- One put: it adds to the history, and the index follows. -/
theorem Indexes.put {history : List ActionCandidate}
    (h : Indexes v key s ((newest (·.actionKey) history).take maxCandidates)) (hmax : 1 ≤ maxCandidates)
    {put : ActionCandidate × Nat} (hkey : put.1.staticKey = key) (hput : putOk v maxCandidates s put = some t) :
    Indexes v key t ((newest (·.actionKey) (put.1 :: history)).take maxCandidates) := by
  obtain ⟨hlate, hactions⟩ := putOk_eq_some hput
  rw [hkey, h.lookup, updatedIndex, Nat.max_eq_left hmax, take_cons_newest] at hactions
  refine ⟨by rw [hactions, AList.lookup_insert]; rfl, fun c hc => ?_⟩
  rw [← take_cons_newest] at hc
  rcases List.mem_cons.1 (List.mem_of_mem_take hc) with rfl | hc
  · refine ⟨?_, hkey⟩
    cases hv : v.candidate put.1 with
    | true => rfl
    | false => exact absurd (.inl hv) hlate
  · exact h.valid c (List.mem_filter.1 hc).1

/-- The whole history. -/
theorem Indexes.putAll (hmax : 1 ≤ maxCandidates) : ∀ (puts : List (ActionCandidate × Nat)) {s t : Store}
    {history : List ActionCandidate}, Indexes v key s ((newest (·.actionKey) history).take maxCandidates) →
    (∀ put ∈ puts, put.1.staticKey = key) → putAll v maxCandidates s puts = some t →
    Indexes v key t ((newest (·.actionKey) (newestFirst puts ++ history)).take maxCandidates)
  | [], s, t, history, h, _, hrun => by
    obtain rfl := Option.some.inj hrun
    exact h
  | put :: puts, s, t, history, h, hkeys, hrun => by
    obtain ⟨hkey, hkeys⟩ := List.forall_mem_cons.1 hkeys
    rw [Core.putAll, List.foldlM_cons, Option.bind_eq_bind, Option.bind_eq_some_iff] at hrun
    obtain ⟨u, hu, hrun⟩ := hrun
    have hrest := Indexes.putAll hmax puts (h.put hmax hkey hu) hkeys hrun
    simpa [newestFirst] using hrest

theorem indexes_nil (hnew : s.actions.lookup key = none) :
    Indexes v key s ((newest (·.actionKey) []).take maxCandidates) :=
  ⟨by rw [hnew]; simp [newest], by simp [newest]⟩

/-- A reader gets the whole index or nothing. -/
theorem Indexes.readCandidates_iff {index : List ActionCandidate} (h : Indexes v key s index) :
    (s.readCandidates v key).1 = some index ↔ index.length ≤ 1024 := by
  have hlookup := h.lookup
  unfold readCandidates
  cases hl : s.actions.lookup key with
  | none =>
    rw [hl] at hlookup
    simp [← hlookup]
  | some found =>
    rw [hl, Option.getD_some] at hlookup
    subst hlookup
    dsimp only
    rw [validIndex_eq h.valid]
    by_cases hle : found.length ≤ 1024
    · simp [hle]
    · simp [hle]

theorem length_take_newestFirst (maxCandidates : Nat) (puts : List (ActionCandidate × Nat)) :
    ((newest (·.actionKey) (newestFirst puts)).take maxCandidates).length =
      min maxCandidates (puts.map (·.1.actionKey)).dedup.length := by
  rw [List.length_take, length_newest, newestFirst, List.map_reverse, List.map_map]
  exact congrArg (min maxCandidates) ((List.reverse_perm _).dedup).length_eq

/-- **After puts of one static key that all succeed, a reader gets the newest
candidates just when they are at most 1024.** -/
theorem readCandidates_putAll (hmax : 1 ≤ maxCandidates) (hnew : s.actions.lookup key = none)
    {puts : List (ActionCandidate × Nat)} (hkeys : ∀ put ∈ puts, put.1.staticKey = key)
    (hrun : putAll v maxCandidates s puts = some t) :
    (t.readCandidates v key).1 = some ((newest (·.actionKey) (newestFirst puts)).take maxCandidates) ↔
      min maxCandidates (puts.map (·.1.actionKey)).dedup.length ≤ 1024 := by
  have hindex := Indexes.putAll hmax puts (indexes_nil hnew) hkeys hrun
  rw [List.append_nil] at hindex
  rw [hindex.readCandidates_iff, length_take_newestFirst]

/-! ## Histories that are too long to read -/

/-- Up to one more put than a reader takes candidates succeeds. -/
theorem exists_putAll (hmax : 1 ≤ maxCandidates) : ∀ (puts : List (ActionCandidate × Nat)) {s : Store}
    {history : List ActionCandidate}, Indexes v key s ((newest (·.actionKey) history).take maxCandidates) →
    (∀ put ∈ puts, v.candidate put.1 = true ∧ put.1.staticKey = key) → history.length + puts.length ≤ 1025 →
    ∃ t, putAll v maxCandidates s puts = some t
  | [], s, _, _, _, _ => ⟨s, rfl⟩
  | put :: puts, s, history, h, hall, hlength => by
    obtain ⟨⟨hvalid, hkey⟩, hall⟩ := List.forall_mem_cons.1 hall
    rw [List.length_cons] at hlength
    have hlate : ¬ StopsEarly v noFaults s put.1 := by
      rw [h.stopsEarly_iff hkey, hvalid, List.length_take]
      have hsublist : (newest (·.actionKey) history).Sublist history := newest_sublist history
      have hle := hsublist.length_le
      simp only [Bool.true_eq_false, false_or]
      omega
    obtain ⟨u, hu⟩ : ∃ u, putOk v maxCandidates s put = some u := exists_putOk hlate
    obtain ⟨t, ht⟩ := exists_putAll hmax puts (h.put hmax hkey hu) hall (by rw [List.length_cons]; omega)
    refine ⟨t, ?_⟩
    rw [putAll, List.foldlM_cons, hu]
    exact ht

theorem candidateOf_valid {digest : Text} (h : validContentKey digest = true) :
    fileValidators.candidate (candidateOf digest) = true := by
  have hkey : validateContentKey digest = .ok () := by rw [validateContentKey, h]; rfl
  have hstatic : validateContentKey (candidateOf digest).staticKey = .ok () := rfl
  have haction : validateContentKey (candidateOf digest).actionKey = .ok () := hkey
  have hheader : checkHeader (candidateOf digest) = .ok () := by
    unfold checkHeader
    rw [hstatic, haction]
    rfl
  have hinputs : checkInputs (candidateOf digest) = .ok () := by
    have hfile : checkInput validateNormalizedInputPath ∅ ⟨"$WORKSPACE/src/lib.rs".toList, digest⟩ =
        .ok {"$WORKSPACE/src/lib.rs".toList} := by
      unfold checkInput
      rw [hkey]
      rfl
    have hfiles : (candidateOf digest).files.foldlM (checkInput validateNormalizedInputPath) ∅ =
        .ok {"$WORKSPACE/src/lib.rs".toList} := by
      rw [candidateOf, List.foldlM_cons, hfile]
      rfl
    unfold checkInputs
    rw [hfiles]
    rfl
  have hartifacts : (candidateOf digest).artifacts.foldlM checkArtifact ∅ = .ok {"libdep.rlib".toList} := by
    have hartifact : checkArtifact ∅ ⟨"libdep.rlib".toList, digest, false⟩ = .ok {"libdep.rlib".toList} := by
      unfold checkArtifact
      rw [hkey]
      rfl
    rw [candidateOf, List.foldlM_cons, hartifact]
    rfl
  have hcontents : validateContentKey (candidateOf digest).stdout.digest = .ok () := rfl
  have hsame : ((candidateOf digest).files.head?.map (·.digest)).getD [] = (candidateOf digest).actionKey := rfl
  rw [fileValidators, decide_eq_true_iff, validateCandidateManifest, hheader, hinputs, hartifacts, hcontents,
    if_neg (not_not_intro hsame)]
  rfl

/-- Two candidates put, the first of them twice. -/
theorem readCandidates_putAll_thrice : ∃ t,
    putAll fileValidators 8 emptyStore [(candidateOf (List.replicate 64 'b'), 1),
      (candidateOf (List.replicate 64 'c'), 2), (candidateOf (List.replicate 64 'b'), 3)] = some t ∧
    (t.readCandidates fileValidators (List.replicate 64 'a')).1 =
      some [candidateOf (List.replicate 64 'b'), candidateOf (List.replicate 64 'c')] := by
  have hvalid : ∀ put ∈ [(candidateOf (List.replicate 64 'b'), 1), (candidateOf (List.replicate 64 'c'), 2),
      (candidateOf (List.replicate 64 'b'), 3)],
      fileValidators.candidate put.1 = true ∧ put.1.staticKey = List.replicate 64 'a' := by decide +kernel
  obtain ⟨t, ht⟩ : ∃ t, putAll fileValidators 8 emptyStore _ = some t :=
    exists_putAll (by decide) _ (indexes_nil rfl) hvalid (by decide)
  refine ⟨t, ht, ?_⟩
  exact (readCandidates_putAll (by decide) rfl (fun put h => (hvalid put h).2) ht).2 (by decide +kernel)

/-- Keys that differ for numbers below `2 ^ 64`. -/
def keyOf (i : Nat) : Text := (List.range 64).map fun bit => if i.testBit bit then 'b' else 'a'

theorem keyOf_valid (i : Nat) : validContentKey (keyOf i) = true := by
  have hall : (keyOf i).all (fun c => c.isDigit || ('a' ≤ c && c ≤ 'f')) = true := by
    refine List.all_eq_true.2 fun c hc => ?_
    obtain ⟨bit, -, rfl⟩ := List.mem_map.1 hc
    by_cases hbit : i.testBit bit = true
    · rw [if_pos hbit]
      rfl
    · rw [if_neg hbit]
      rfl
  rw [validContentKey, hall, keyOf, List.length_map, List.length_range]
  rfl

theorem keyOf_injOn {i j : Nat} (hi : i < 2 ^ 64) (hj : j < 2 ^ 64) (h : keyOf i = keyOf j) : i = j := by
  refine Nat.eq_of_testBit_eq fun bit => ?_
  by_cases hbit : bit < 64
  · have hsame := List.map_inj_left.1 h bit (List.mem_range.2 hbit)
    by_cases hb : i.testBit bit = true <;> by_cases hb' : j.testBit bit = true <;> simp_all
  · have hle : 2 ^ 64 ≤ 2 ^ bit := Nat.pow_le_pow_right (by decide) (Nat.le_of_not_lt hbit)
    rw [Nat.testBit_lt_two_pow (hi.trans_le hle), Nat.testBit_lt_two_pow (hj.trans_le hle)]

/-- One candidate more than a reader takes. -/
def tooMany : List (ActionCandidate × Nat) := (List.range 1025).map fun i => (candidateOf (keyOf i), i)

/-- A server may be started with room for 1025 candidates a key, and takes as
many; the reader then gets none of them. -/
theorem readCandidates_too_many : ¬ ∀ (v : Validators) (maxCandidates : Nat) (key : Text) (s t : Store)
    (puts : List (ActionCandidate × Nat)), 1 ≤ maxCandidates → s.actions.lookup key = none →
    (∀ put ∈ puts, v.candidate put.1 = true ∧ put.1.staticKey = key) → putAll v maxCandidates s puts = some t →
    (t.readCandidates v key).1 = some ((newest (·.actionKey) (newestFirst puts)).take maxCandidates) := by
  intro h
  have hvalid : ∀ put ∈ tooMany, fileValidators.candidate put.1 = true ∧ put.1.staticKey = List.replicate 64 'a' := by
    intro put hput
    obtain ⟨i, -, rfl⟩ := List.mem_map.1 hput
    exact ⟨candidateOf_valid (keyOf_valid i), rfl⟩
  have hlength : tooMany.length = 1025 := by rw [tooMany, List.length_map, List.length_range]
  obtain ⟨t, ht⟩ : ∃ t, putAll fileValidators 1025 emptyStore tooMany = some t :=
    exists_putAll (by decide) tooMany (indexes_nil rfl) hvalid (by rw [hlength]; rfl)
  have hkeys : (tooMany.map (·.1.actionKey)).Nodup := by
    rw [tooMany, List.map_map]
    refine List.Nodup.map_on (fun i hi j hj hij => ?_) List.nodup_range
    have hi := List.mem_range.1 hi
    have hj := List.mem_range.1 hj
    exact keyOf_injOn (by omega) (by omega) hij
  have hindex := Indexes.putAll (by decide) tooMany (indexes_nil rfl) (fun put hput => (hvalid put hput).2) ht
  rw [List.append_nil] at hindex
  have hread := h fileValidators 1025 (List.replicate 64 'a') emptyStore t tooMany (by decide) rfl hvalid ht
  have hfew := hindex.readCandidates_iff.1 hread
  rw [length_take_newestFirst, hkeys.dedup, List.length_map, hlength] at hfew
  omega

end Bellows.Core
