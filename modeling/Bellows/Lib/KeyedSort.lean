/-
Lists sorted by a key, each key once: `sort_by` and then `dedup_by` of a
vector. The sort is stable, so of the elements with one key the first stays
(`mem_sortedBy`).
-/
import Mathlib.Data.List.Destutter
import Mathlib.Data.List.Sort

namespace KeyedSort

variable {α κ : Type} [LinearOrder κ] [DecidableEq κ] (key : α → κ)

/-- `sort_by` the key, then `dedup_by` it. -/
def sortedBy (l : List α) : List α :=
  (l.insertionSort fun a b => key a ≤ key b).destutter fun a b => key a ≠ key b

/-! ## The first element with a key -/

theorem find?_orderedInsert (k : κ) (a : α) (l : List α) :
    (l.orderedInsert (fun a b => key a ≤ key b) a).find? (fun b => key b = k) =
      (a :: l).find? fun b => key b = k := by
  induction l with
  | nil => rfl
  | cons b l ih =>
    rw [List.orderedInsert_cons]
    split
    · rfl
    · next hlt =>
      -- `a` goes behind `b`, whose key is another one
      have hne : key b ≠ key a := fun h => hlt h.ge
      rw [List.find?_cons (a := b), ih, List.find?_cons (a := a), List.find?_cons (a := a), List.find?_cons (a := b)]
      by_cases hb : key b = k
      · have ha : key a ≠ k := fun h => hne (hb.trans h.symm)
        simp only [hb, ha, decide_true, decide_false]
      · simp only [hb, decide_false]

theorem find?_insertionSort (k : κ) (l : List α) :
    (l.insertionSort fun a b => key a ≤ key b).find? (fun b => key b = k) = l.find? fun b => key b = k := by
  induction l with
  | nil => rfl
  | cons a l ih => rw [List.insertionSort_cons, find?_orderedInsert, List.find?_cons, List.find?_cons, ih]

omit [LinearOrder κ] in
theorem find?_destutter' (k : κ) (a : α) (l : List α) :
    (l.destutter' (fun a b => key a ≠ key b) a).find? (fun b => key b = k) =
      (a :: l).find? fun b => key b = k := by
  induction l generalizing a with
  | nil => rfl
  | cons b l ih =>
    rw [List.destutter'_cons]
    split
    · rw [List.find?_cons, ih, List.find?_cons (a := a)]
    · next heq =>
      -- `b` is dropped: its key is `a`'s
      rw [ih, List.find?_cons (a := a), List.find?_cons (a := a), List.find?_cons (a := b), ← not_ne_iff.1 heq]
      by_cases ha : key a = k
      · simp only [ha, decide_true]
      · simp only [ha, decide_false]

theorem find?_sortedBy (k : κ) (l : List α) :
    (sortedBy key l).find? (fun b => key b = k) = l.find? fun b => key b = k := by
  rw [← find?_insertionSort key k l, sortedBy]
  cases l.insertionSort fun a b => key a ≤ key b with
  | nil => rfl
  | cons a l => exact find?_destutter' key k a l

/-! ## Distinct keys -/

/-- Keys ascend. -/
theorem pairwise_sortedBy (l : List α) : (sortedBy key l).Pairwise fun a b => key a < key b := by
  have : Std.Total fun a b : α => key a ≤ key b := ⟨fun _ _ => le_total _ _⟩
  have : IsTrans α fun a b => key a ≤ key b := ⟨fun _ _ _ hab hbc => hab.trans hbc⟩
  have : IsTrans α fun a b => key a < key b := ⟨fun _ _ _ hab hbc => hab.trans hbc⟩
  have hsorted : (sortedBy key l).Pairwise fun a b => key a ≤ key b :=
    (List.pairwise_insertionSort (fun a b => key a ≤ key b) l).sublist (List.destutter_sublist _ _)
  have hchain : (sortedBy key l).IsChain fun a b => key a ≠ key b := List.isChain_destutter _ _
  refine List.isChain_iff_pairwise.1 (List.isChain_iff_getElem.2 fun i hi => ?_)
  exact lt_of_le_of_ne (hsorted.isChain.getElem i hi) (hchain.getElem i hi)

theorem nodup_sortedBy (l : List α) : ((sortedBy key l).map key).Nodup :=
  List.pairwise_map.2 ((pairwise_sortedBy key l).imp fun h => h.ne)

/-- **The first of each key stays**, and nothing else does. -/
theorem mem_sortedBy {a : α} {l : List α} :
    a ∈ sortedBy key l ↔ l.find? (fun b => key b = key a) = some a := by
  rw [← find?_sortedBy]
  refine ⟨fun h => ?_, fun h => List.mem_of_find?_eq_some h⟩
  obtain ⟨b, hb⟩ : ∃ b, (sortedBy key l).find? (fun b => key b = key a) = some b :=
    Option.isSome_iff_exists.1 (List.find?_isSome.2 ⟨a, h, by simp⟩)
  have hkey : key b = key a := by simpa using List.find?_some hb
  rw [hb, List.inj_on_of_nodup_map (nodup_sortedBy key l) (List.mem_of_find?_eq_some hb) h hkey]

theorem mem_of_mem_sortedBy {a : α} {l : List α} (h : a ∈ sortedBy key l) : a ∈ l :=
  List.mem_of_find?_eq_some ((mem_sortedBy key).1 h)

/-! ## The sort alone -/

omit [DecidableEq κ] in
/-- Where each key is there once, the sort tells the elements and nothing of
their order. -/
theorem insertionSort_eq_iff_perm {l l' : List α} (hn : (l.map key).Nodup) :
    (l.insertionSort fun a b => key a ≤ key b) = (l'.insertionSort fun a b => key a ≤ key b) ↔ l.Perm l' := by
  have : Std.Total fun a b : α => key a ≤ key b := ⟨fun _ _ => le_total _ _⟩
  have : IsTrans α fun a b => key a ≤ key b := ⟨fun _ _ _ hab hbc => hab.trans hbc⟩
  have hl := List.perm_insertionSort (fun a b => key a ≤ key b) l
  have hl' := List.perm_insertionSort (fun a b => key a ≤ key b) l'
  constructor
  · intro heq
    exact hl.symm.trans (heq ▸ hl')
  · intro hperm
    have hsorted := List.pairwise_insertionSort (fun a b => key a ≤ key b) l
    have hsorted' := List.pairwise_insertionSort (fun a b => key a ≤ key b) l'
    refine (hl.trans (hperm.trans hl'.symm)).eq_of_pairwise ?_ hsorted hsorted'
    intro a b ha hb hab hba
    have hal : a ∈ l := hl.mem_iff.1 ha
    have hbl : b ∈ l := hperm.mem_iff.2 (hl'.mem_iff.1 hb)
    exact List.inj_on_of_nodup_map hn hal hbl (le_antisymm hab hba)

end KeyedSort
