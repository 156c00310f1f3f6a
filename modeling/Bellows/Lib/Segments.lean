/-
The segments of a text between its separators, where two texts meet.
-/
import Mathlib.Data.List.Basic

namespace Segments

variable {α : Type} {p : α → Bool}

theorem exists_last (p : α → Bool) (text : List α) : ∃ before last, text.splitOnP p = before ++ [last] :=
  ⟨_, _, (List.dropLast_concat_getLast (List.splitOnP_ne_nil p text)).symm⟩

theorem exists_first (p : α → Bool) (text : List α) : ∃ first after, text.splitOnP p = first :: after :=
  List.exists_cons_of_ne_nil (List.splitOnP_ne_nil p text)

/-- The last segment of the one text and the first of the other become one. -/
theorem splitOnP_append : ∀ {a b : List α} {before after : List (List α)} {last first : List α},
    a.splitOnP p = before ++ [last] → b.splitOnP p = first :: after →
    (a ++ b).splitOnP p = before ++ (last ++ first) :: after
  | [], b, before, after, last, first, ha, hb => by
    obtain ⟨rfl, rfl⟩ : before = [] ∧ last = [] := by
      cases before with
      | nil => simpa using ha.symm
      | cons _ before => simp at ha
    exact hb
  | c :: a, b, before, after, last, first, ha, hb => by
    obtain ⟨before', last', ha'⟩ := exists_last p a
    have ih := splitOnP_append ha' hb
    rw [List.splitOnP_cons_eq_if_modifyHead, ha'] at ha
    rw [List.cons_append, List.splitOnP_cons_eq_if_modifyHead, ih]
    by_cases hc : p c
    · rw [if_pos hc] at ha ⊢
      obtain ⟨rfl, hlast⟩ := List.append_inj' (show before ++ [last] = ([] :: before') ++ [last'] from ha.symm) rfl
      rw [List.cons.inj hlast |>.1]
      rfl
    · rw [if_neg hc] at ha ⊢
      cases before' with
      | nil =>
        obtain ⟨rfl, hlast⟩ := List.append_inj' (show before ++ [last] = [] ++ [c :: last'] from ha.symm) rfl
        rw [List.cons.inj hlast |>.1]
        rfl
      | cons head before' =>
        obtain ⟨rfl, hlast⟩ := List.append_inj'
          (show before ++ [last] = ((c :: head) :: before') ++ [last'] from ha.symm) rfl
        rw [List.cons.inj hlast |>.1]
        rfl

/-- No segment has a separator. -/
theorem clear_of_mem_splitOnP : ∀ {text piece : List α}, piece ∈ text.splitOnP p → ∀ c ∈ piece, p c = false
  | [], piece, h => by
    rw [List.splitOnP_nil, List.mem_singleton] at h
    simp [h]
  | d :: text, piece, h => by
    rw [List.splitOnP_cons_eq_if_modifyHead] at h
    obtain ⟨first, after, hfirst⟩ := exists_first p text
    by_cases hd : p d
    · rw [if_pos hd] at h
      obtain rfl | h := List.mem_cons.1 h
      · simp
      · exact clear_of_mem_splitOnP h
    · rw [if_neg hd, hfirst, List.modifyHead_cons] at h
      have ih : ∀ piece ∈ first :: after, ∀ c ∈ piece, p c = false := fun piece hp =>
        clear_of_mem_splitOnP (hfirst ▸ hp)
      obtain rfl | h := List.mem_cons.1 h
      · exact List.forall_mem_cons.2 ⟨Bool.eq_false_iff.2 hd, ih first List.mem_cons_self⟩
      · exact ih piece (List.mem_cons_of_mem _ h)

/-- The segment after the last separator. -/
def lastSegment (p : α → Bool) (text : List α) : List α := (text.splitOnP p).getLast (List.splitOnP_ne_nil p text)

theorem splitOnP_eq_concat (p : α → Bool) (text : List α) :
    text.splitOnP p = (text.splitOnP p).dropLast ++ [lastSegment p text] :=
  (List.dropLast_concat_getLast (List.splitOnP_ne_nil p text)).symm

theorem lastSegment_mem (p : α → Bool) (text : List α) : lastSegment p text ∈ text.splitOnP p := List.getLast_mem _

theorem lastSegment_cons {c : α} (hc : p c = true) (text : List α) : lastSegment p (c :: text) = lastSegment p text := by
  simp only [lastSegment, List.splitOnP_cons_eq_if_modifyHead, hc, if_pos]
  exact List.getLast_cons _

theorem lastSegment_append_cons {c : α} (hc : p c = true) (a text : List α) :
    lastSegment p (a ++ c :: text) = lastSegment p text := by
  simp only [lastSegment, List.splitOnP_append_cons a text hc]
  exact List.getLast_append_of_ne_nil _ (List.splitOnP_ne_nil p text)

theorem lastSegment_of_clear {text : List α} (h : ∀ c ∈ text, p c = false) : lastSegment p text = text := by
  simp only [lastSegment, List.splitOnP_eq_singleton h, List.getLast_singleton]

/-- A text without separators is its last segment, any other ends in a
separator and its last segment. -/
theorem clear_or_eq_append_lastSegment (p : α → Bool) : ∀ text : List α,
    (∀ c ∈ text, p c = false) ∨ ∃ before sep, p sep = true ∧ text = before ++ sep :: lastSegment p text
  | [] => .inl (by simp)
  | c :: text => by
    obtain hclear | ⟨before, sep, hsep, htext⟩ := clear_or_eq_append_lastSegment p text
    · cases hc : p c with
      | true => exact .inr ⟨[], c, hc, by rw [lastSegment_cons hc, lastSegment_of_clear hclear]; rfl⟩
      | false => exact .inl (List.forall_mem_cons.2 ⟨hc, hclear⟩)
    · have hlast : lastSegment p (c :: text) = lastSegment p text := by
        rw [htext, ← List.cons_append, lastSegment_append_cons hsep, lastSegment_append_cons hsep]
      exact .inr ⟨c :: before, sep, hsep, by rw [hlast, List.cons_append, ← htext]⟩

/-- Separators at the start make no segment but empty ones. -/
theorem mem_splitOnP_dropWhile {piece : List α} (hpiece : piece ≠ []) : ∀ text : List α,
    piece ∈ (text.dropWhile p).splitOnP p ↔ piece ∈ text.splitOnP p
  | [] => Iff.rfl
  | c :: text => by
    cases hc : p c with
    | true =>
      rw [List.dropWhile_cons_of_pos hc, mem_splitOnP_dropWhile hpiece text, List.splitOnP_cons_eq_if_modifyHead, if_pos hc,
        List.mem_cons, or_iff_right hpiece]
    | false => rw [List.dropWhile_cons_of_neg (by simp [hc])]

/-- The segments tell the text. -/
theorem splitOnP_injective [DecidableEq α] {sep : α} : ∀ {a b : List α},
    a.splitOnP (· == sep) = b.splitOnP (· == sep) → a = b
  | [], [], _ => rfl
  | [], d :: b, h => by
    obtain ⟨first, after, hb⟩ := exists_first (· == sep) b
    rw [List.splitOnP_nil, List.splitOnP_cons_eq_if_modifyHead, hb] at h
    split at h <;> simp at h
  | c :: a, [], h => by
    obtain ⟨first, after, ha⟩ := exists_first (· == sep) a
    rw [List.splitOnP_nil, List.splitOnP_cons_eq_if_modifyHead, ha] at h
    split at h <;> simp at h
  | c :: a, d :: b, h => by
    obtain ⟨first, after, ha⟩ := exists_first (· == sep) a
    obtain ⟨first', after', hb⟩ := exists_first (· == sep) b
    rw [List.splitOnP_cons_eq_if_modifyHead, List.splitOnP_cons_eq_if_modifyHead, ha, hb] at h
    by_cases hc : c = sep <;> by_cases hd : d = sep
    · subst hc hd
      have heq : first :: after = first' :: after' := by simpa using h
      rw [splitOnP_injective (ha.trans (heq.trans hb.symm))]
    · simp [hc, hd] at h
    · simp [hc, hd] at h
    · have heq : c = d ∧ first :: after = first' :: after' := by
        simp only [beq_iff_eq, hc, hd, if_false, List.modifyHead_cons, List.cons.injEq] at h
        exact ⟨h.1.1, by rw [h.1.2, h.2]⟩
      rw [heq.1, splitOnP_injective (ha.trans (heq.2.trans hb.symm))]

end Segments
