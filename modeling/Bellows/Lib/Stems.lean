/-
Names made of a base and a suffix, and the stems they are names of: the stem
itself, or it and a separator and anything.
-/
import Mathlib.Data.List.Infix

namespace Stems

variable {α : Type} {sep : α} {stem base suffix : List α}

def OfStem (sep : α) (stem name : List α) : Prop := name = stem ∨ stem ++ [sep] <+: name

/-- Nothing, or a separator and what has no other one. -/
def Short (sep : α) (suffix : List α) : Prop := suffix = [] ∨ ∃ rest, suffix = sep :: rest ∧ sep ∉ rest

instance [DecidableEq α] (sep : α) (stem name : List α) : Decidable (OfStem sep stem name) :=
  inferInstanceAs (Decidable (name = stem ∨ stem ++ [sep] <+: name))

theorem short_nil (sep : α) : Short sep [] := .inl rfl

theorem OfStem.append (h : OfStem sep stem base) (hsuffix : Short sep suffix) : OfStem sep stem (base ++ suffix) := by
  obtain rfl | h := h
  · obtain rfl | ⟨rest, rfl, -⟩ := hsuffix
    · exact .inl (List.append_nil _)
    · exact .inr ⟨rest, by simp⟩
  · exact .inr (h.trans (List.prefix_append _ _))

/-- A base with a short suffix is of a stem if the base is, or if it is the
stem: the suffix has no second separator to end a stem at. -/
theorem ofStem_append_iff (hsuffix : Short sep suffix) :
    OfStem sep stem (base ++ suffix) ↔ OfStem sep stem base ∨ base ++ suffix = stem := by
  refine ⟨fun h => ?_, fun h => h.elim (·.append hsuffix) .inl⟩
  obtain h | h := h
  · exact .inr h
  obtain hle | hle := List.prefix_or_prefix_of_prefix h (List.prefix_append base suffix)
  · exact .inl (.inr hle)
  obtain ⟨more, hmore⟩ := hle
  have hpre : more <+: suffix := by
    rw [← hmore, List.prefix_append_right_inj] at h
    exact h
  cases more using List.reverseRecOn with
  | nil => exact .inl (.inr (by rw [← hmore, List.append_nil]))
  | append_singleton more c =>
    obtain ⟨rfl, hc⟩ := List.append_inj' (hmore.symm.trans (List.append_assoc base more [c]).symm) rfl
    obtain rfl := List.singleton_inj.1 hc
    cases more with
    | nil => exact .inl (.inl (List.append_nil base).symm)
    | cons d more =>
      obtain rfl | ⟨rest, rfl, hrest⟩ := hsuffix
      · exact absurd hpre.length_le (by simp)
      · refine absurd ((List.cons_prefix_cons.1 hpre).2.subset ?_) hrest
        simp

theorem OfStem.of_append_eq (h : base ++ suffix = stem) (hsuffix : Short sep suffix) : OfStem sep base stem :=
  h ▸ OfStem.append (.inl rfl) hsuffix

/-- The same words before both. -/
theorem ofStem_append_left (before : List α) : OfStem sep (before ++ stem) (before ++ base) ↔ OfStem sep stem base := by
  rw [OfStem, OfStem, List.append_cancel_left_eq, List.append_assoc, List.prefix_append_right_inj]

end Stems
