/-
Totals by group. Items have keys, and a map holds for each key what the items of
that key have made of its value; whichever order they come in, each entry is
the fold over its own items (`lookup_foldl_upsert`, `lookup_foldl_modify`).
-/
import Mathlib.Algebra.BigOperators.Group.Finset.Basic
import Mathlib.Algebra.BigOperators.Group.Finset.Piecewise
import Mathlib.Algebra.GroupWithZero.Nat
import Bellows.Lib.Assoc

namespace Grouping

variable {κ υ ι : Type} [DecidableEq κ]

/-- An entry that is there, changed. -/
def modify (m : Assoc κ υ) (k : κ) (f : υ → υ) : Assoc κ υ :=
  match m.lookup k with
  | some v => m.insert k (f v)
  | none => m

/-- The same for an item that may have no key. -/
def modify? (m : Assoc κ υ) (key : Option κ) (f : υ → υ) : Assoc κ υ := key.elim m fun k => modify m k f

/-- An entry, which is `v` at first, changed. -/
def upsert (m : Assoc κ υ) (k : κ) (v : υ) (f : υ → υ) : Assoc κ υ := m.insert k (f ((m.lookup k).getD v))

theorem lookup_modify (m : Assoc κ υ) (k j : κ) (f : υ → υ) :
    (modify m k f).lookup j = if k = j then (m.lookup j).map f else m.lookup j := by
  unfold modify
  by_cases hkj : k = j
  · subst hkj
    cases h : m.lookup k <;> simp [h]
  · cases h : m.lookup k with
    | none => simp [hkj]
    | some v => simp [hkj, AList.lookup_insert_ne (Ne.symm hkj)]

theorem lookup_upsert (m : Assoc κ υ) (k j : κ) (v : υ) (f : υ → υ) :
    (upsert m k v f).lookup j = if k = j then some (f ((m.lookup j).getD v)) else m.lookup j := by
  unfold upsert
  by_cases hkj : k = j
  · subst hkj
    simp
  · simp [hkj, AList.lookup_insert_ne (Ne.symm hkj)]

/-- Items that change the entries of their keys, if they have any. -/
theorem lookup_foldl_modify (key : ι → Option κ) (f : ι → υ → υ) (items : List ι) (m : Assoc κ υ) (k : κ) :
    (items.foldl (fun m i => modify? m (key i) (f i)) m).lookup k =
      (m.lookup k).map fun v => (items.filter fun i => key i = some k).foldl (fun v i => f i v) v := by
  induction items generalizing m with
  | nil => simp
  | cons i items ih =>
    rw [List.foldl_cons, ih]
    cases hi : key i with
    | none => simp [hi, modify?]
    | some j =>
      by_cases hjk : j = k
      · subst hjk
        simp [hi, modify?, lookup_modify, Function.comp_def]
      · simp [hi, modify?, lookup_modify, hjk]

/-- Items that change the entries of their keys, which are there with the first. -/
theorem lookup_foldl_upsert (key : ι → κ) (init : κ → υ) (f : ι → υ → υ) (items : List ι) (m : Assoc κ υ) (k : κ) :
    (items.foldl (fun m i => upsert m (key i) (init (key i)) (f i)) m).lookup k =
      if (items.filter fun i => key i = k) = [] then m.lookup k
      else some ((items.filter fun i => key i = k).foldl (fun v i => f i v) ((m.lookup k).getD (init k))) := by
  induction items generalizing m with
  | nil => simp
  | cons i items ih =>
    rw [List.foldl_cons, ih, lookup_upsert]
    by_cases hi : key i = k
    · subst hi
      simp only [if_true, decide_true, List.filter_cons_of_pos, List.foldl_cons, reduceCtorEq, if_false, Option.getD_some]
      split
      · next hnil => rw [hnil, List.foldl_nil]
      · rfl
    · simp [hi]

/-! ## Sums -/

/-- The groups' sums make up the whole one. -/
theorem sum_groups (keys : Finset κ) (key : ι → κ) (w : ι → Nat) {items : List ι} (h : ∀ i ∈ items, key i ∈ keys) :
    ∑ k ∈ keys, ((items.filter fun i => key i = k).map w).sum = (items.map w).sum := by
  induction items with
  | nil => simp
  | cons i items ih =>
    obtain ⟨hi, hitems⟩ := List.forall_mem_cons.1 h
    have hsplit : ∀ k, (((i :: items).filter fun j => key j = k).map w).sum =
        (if key i = k then w i else 0) + ((items.filter fun j => key j = k).map w).sum := by
      intro k
      by_cases hk : key i = k <;> simp [hk]
    rw [Finset.sum_congr rfl fun k _ => hsplit k, Finset.sum_add_distrib, ih hitems, Finset.sum_ite_eq, if_pos hi]
    rfl

/-- A sum over a map's values is one over its keys. -/
theorem sum_entries (m : Assoc κ υ) (w : υ → Nat) :
    (m.entries.map fun e => w e.2).sum = ∑ k ∈ m.keys.toFinset, ((m.lookup k).map w).getD 0 := by
  have hvalues : m.entries.map (fun e => w e.2) = m.keys.map fun k => ((m.lookup k).map w).getD 0 := by
    rw [AList.keys, List.keys, List.map_map]
    refine List.map_congr_left fun e he => ?_
    have hlookup : m.lookup e.1 = some e.2 := Assoc.mem_entries_iff.1 he
    simp [hlookup]
  rw [hvalues, List.sum_toFinset _ (AList.keys_nodup m)]

theorem mem_keys_iff (m : Assoc κ υ) (k : κ) : k ∈ m.keys.toFinset ↔ (m.lookup k).isSome = true := by
  rw [List.mem_toFinset, AList.lookup_isSome, AList.mem_keys]

end Grouping
