/-
Tallies over a list of parts that change one at a time: what a sum or a
count becomes when one element is replaced or one is added.
-/
import Mathlib.Algebra.BigOperators.Group.List.Basic
import Mathlib.Algebra.Order.BigOperators.Group.List
import Mathlib.Algebra.Order.Ring.Int

namespace Tally

variable {α : Type*}

theorem getElem?_set_of_some {l : List α} {i : Nat} {a b : α} (h : l[i]? = some a) (j : Nat) :
    (l.set i b)[j]? = if j = i then some b else l[j]? := by
  rw [List.getElem?_set]
  by_cases hj : i = j
  · subst hj
    rw [if_pos rfl, if_pos rfl, if_pos (List.getElem?_eq_some_iff.1 h).1]
  · rw [if_neg hj, if_neg (Ne.symm hj)]

/-- The sum of the elements' shares. -/
def total (share : α → Int) (l : List α) : Int := (l.map share).sum

@[simp] theorem total_nil (share : α → Int) : total share [] = 0 := rfl

theorem total_concat (share : α → Int) (l : List α) (a : α) : total share (l ++ [a]) = total share l + share a := by
  simp [total]

theorem total_set (share : α → Int) {l : List α} {i : Nat} {a : α} (h : l[i]? = some a) (b : α) :
    total share (l.set i b) = total share l - share a + share b := by
  induction l generalizing i with
  | nil => simp at h
  | cons c l ih =>
    cases i with
    | zero =>
      obtain rfl := Option.some.inj h
      simp only [total, List.set_cons_zero, List.map_cons, List.sum_cons]
      omega
    | succ i =>
      have := ih (i := i) h
      simp only [total, List.set_cons_succ, List.map_cons, List.sum_cons] at this ⊢
      omega

theorem total_nonneg {share : α → Int} {l : List α} (h : ∀ a ∈ l, 0 ≤ share a) : 0 ≤ total share l := by
  refine List.sum_nonneg fun x hx => ?_
  obtain ⟨a, ha, rfl⟩ := List.mem_map.1 hx
  exact h a ha

/-- A count is the total of ones. -/
theorem total_indicator (p : α → Bool) (l : List α) : total (fun a => if p a then 1 else 0) l = (l.countP p : Int) := by
  induction l with
  | nil => rfl
  | cons a l ih =>
    simp only [total, List.map_cons, List.sum_cons, List.countP_cons] at ih ⊢
    rw [ih]
    split
    · simp only [Nat.cast_add, Nat.cast_one]
      omega
    · simp

end Tally
