/-
Replacing by a search through windows: the first window of the word's length
that is the word, from an offset on, is replaced, and the search goes on behind
it. It replaces the same occurrences as `Text.replace`.
-/
import Bellows.Lib.Text

namespace Windows

open Text

variable {α : Type} [DecidableEq α]

/-- `windows(pat.len()).position(|w| w == pat)` -/
def position (pat : List α) : List α → Option Nat
  | [] => none
  | c :: rest => if (c :: rest).take pat.length = pat then some 0 else (position pat rest).map (· + 1)

omit [DecidableEq α] in
theorem take_eq_iff {pat text : List α} : text.take pat.length = pat ↔ pat <+: text := by
  rw [List.prefix_iff_eq_take, eq_comm]

/-- The word is at the position, and nowhere before it. -/
theorem position_eq_some {pat : List α} : ∀ {text : List α} {pos : Nat}, position pat text = some pos →
    ∃ before after, text = before ++ (pat ++ after) ∧ before.length = pos ∧
      ∀ s, s <:+ before → s ≠ [] → ¬ pat <+: s ++ (pat ++ after)
  | [], _, h => by cases h
  | c :: rest, pos, h => by
    rw [position] at h
    split at h
    · next hhere =>
      obtain ⟨after, hafter⟩ := take_eq_iff.1 hhere
      refine ⟨[], after, hafter.symm, Option.some.inj h, fun s hs hne => ?_⟩
      exact absurd (List.suffix_nil.1 hs) hne
    · next hnot =>
      obtain ⟨next, hnext, hpos⟩ := Option.map_eq_some_iff.1 h
      obtain ⟨before, after, htext, hlen, hclear⟩ := position_eq_some hnext
      refine ⟨c :: before, after, by rw [htext, List.cons_append], by simp only [List.length_cons]; omega, fun s hs hne => ?_⟩
      rcases List.suffix_cons_iff.1 hs with hall | hs
      · rw [hall, List.cons_append, ← htext, ← take_eq_iff]
        exact hnot
      · exact hclear s hs hne

theorem position_eq_none {pat : List α} : ∀ {text : List α}, position pat text = none →
    ∀ s, s <:+ text → s ≠ [] → ¬ pat <+: s
  | [], _, s, hs, hne => absurd (List.suffix_nil.1 hs) hne
  | c :: rest, h, s, hs, hne => by
    rw [position] at h
    split at h
    · cases h
    · next hnot =>
      rcases List.suffix_cons_iff.1 hs with hall | hs
      · rw [hall, ← take_eq_iff]
        exact hnot
      · exact position_eq_none (Option.map_eq_none_iff.1 h) s hs hne

theorem position_le {pat text : List α} {pos : Nat} (h : position pat text = some pos) :
    pos + pat.length ≤ text.length := by
  obtain ⟨before, after, rfl, hlen, -⟩ := position_eq_some h
  simp only [List.length_append]
  omega

/-- The loop, from the offset on, with the output so far. -/
def replaceFrom (pat into value : List α) (hpat : pat ≠ []) (offset : Nat) (output : List α) : List α :=
  match _h : position pat (value.drop offset) with
  | none => output ++ value.drop offset
  | some pos =>
    let absolute := offset + pos
    replaceFrom pat into value hpat (absolute + pat.length) (output ++ (value.drop offset).take pos ++ into)
termination_by value.length - offset
decreasing_by
  have hle := position_le _h
  have hpos := List.length_pos_of_ne_nil hpat
  rw [List.length_drop] at hle
  omega

/-- One word replaced all through a value. -/
def replace (pat into value : List α) (hpat : pat ≠ []) : List α := replaceFrom pat into value hpat 0 []

theorem replaceFrom_eq (pat into value : List α) (hpat : pat ≠ []) (offset : Nat) (output : List α) :
    replaceFrom pat into value hpat offset output = output ++ Text.replace pat into (value.drop offset) := by
  induction offset, output using replaceFrom.induct pat into value hpat with
  | case1 offset output h =>
    rw [replaceFrom]
    split
    · next hnone =>
      have hsame := replace_append_of_clear into (a := value.drop offset) (b := []) fun s hs hne => by
        rw [List.append_nil]
        exact position_eq_none hnone s hs hne
      rw [List.append_nil, replace_nil, List.append_nil] at hsame
      rw [hsame]
    · next pos hsome =>
      rw [h] at hsome
      cases hsome
  | case2 offset output pos h absolute ih =>
    rw [replaceFrom]
    split
    · next hnone =>
      rw [h] at hnone
      cases hnone
    · next pos' hsome =>
      obtain rfl : pos' = pos := Option.some.inj (hsome.symm.trans h)
      obtain ⟨before, after, hvalue, hlen, hclear⟩ := position_eq_some h
      have hbehind : value.drop (absolute + pat.length) = after := by
        have hdrop : value.drop (absolute + pat.length) = (value.drop offset).drop (pos' + pat.length) := by
          rw [List.drop_drop, Nat.add_assoc]
        rw [hdrop, hvalue, ← hlen, ← List.append_assoc, ← List.length_append, List.drop_left]
      have hbefore : (value.drop offset).take pos' = before := by
        rw [hvalue, ← hlen, List.take_left]
      rw [ih, hbehind, hbefore, hvalue, replace_append_of_clear into hclear, replace_self_append into after hpat]
      simp only [List.append_assoc]

/-- The search through windows replaces the leftmost occurrences that do not
overlap. -/
theorem replace_eq (pat into value : List α) (hpat : pat ≠ []) : replace pat into value hpat = Text.replace pat into value := by
  rw [replace, replaceFrom_eq, List.drop_zero, List.nil_append]

end Windows
