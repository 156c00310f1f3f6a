/-
The text of an access journal: the line `record_use` appends, and what
`parse_lines` reads of a file whose writers may have been interrupted.

Lines are read back where they start a line (`parseLines_append`). What a
file's whole lines tell, it goes on telling whatever is appended
(`wholeUses_append`); a line appended to an interrupted one joins it.
-/
import Mathlib.Data.List.DropRight
import Bellows.Core.Store

namespace Bellows.Access

open Bellows.Core

/-- The line of a use: `{static_key} {action_key} {ms}\n`. -/
def useLine (use : Use) : Text :=
  use.staticKey ++ ' ' :: (use.actionKey ++ ' ' :: (Nat.toDigits 10 use.ms ++ ['\n']))

/-- `str::parse::<u64>` -/
def parseU64 (text : Text) : Option Nat :=
  let digits := if text.head? = some '+' then text.tail else text
  if digits ≠ [] ∧ digits.all Char.isDigit ∧ Nat.ofDigitChars 10 digits 0 ≤ U64_MAX then
    some (Nat.ofDigitChars 10 digits 0)
  else none

/-- One line of `parse_lines`. -/
def parseLine (line : Text) : Option Use :=
  match line.splitOn ' ' with
  | [key, action, ms] =>
    if validContentKey key && validContentKey action then (parseU64 ms).map (⟨key, action, ·⟩) else none
  | _ => none

/-- `parse_lines` -/
def parseLines (bytes : Text) : List Use := (Text.lines bytes).filterMap parseLine

/-- A use that `record_use` takes, and that can be read back. -/
structure Valid (use : Use) : Prop where
  staticKey : validContentKey use.staticKey = true
  actionKey : validContentKey use.actionKey = true
  ms : use.ms ≤ U64_MAX

instance (use : Use) : Decidable (Valid use) :=
  decidable_of_iff (validContentKey use.staticKey = true ∧ validContentKey use.actionKey = true ∧ use.ms ≤ U64_MAX)
    ⟨fun h => ⟨h.1, h.2.1, h.2.2⟩, fun h => ⟨h.staticKey, h.actionKey, h.ms⟩⟩

/-! ## One line -/

theorem not_mem_of_validContentKey {key : Text} (h : validContentKey key = true) {c : Char} (hc : c.isDigit = false)
    (hhex : ¬ ('a' ≤ c ∧ c ≤ 'f')) : c ∉ key := by
  intro hmem
  simp only [validContentKey, Bool.and_eq_true, List.all_eq_true, Bool.or_eq_true, decide_eq_true_eq] at h
  rcases h.2 c hmem with hd | hr
  · rw [hc] at hd
    cases hd
  · exact hhex hr

theorem not_mem_toDigits {n : Nat} {c : Char} (hc : c.isDigit = false) : c ∉ Nat.toDigits 10 n := by
  intro hmem
  have hd := Nat.isDigit_of_mem_toDigits (by omega) (by omega) hmem
  rw [hc] at hd
  cases hd

theorem parseU64_toDigits {n : Nat} (h : n ≤ U64_MAX) : parseU64 (Nat.toDigits 10 n) = some n := by
  have hplus : (Nat.toDigits 10 n).head? ≠ some '+' := by
    intro hh
    exact not_mem_toDigits (by decide) (List.mem_of_head? hh)
  have hdigits : (Nat.toDigits 10 n).all Char.isDigit = true :=
    List.all_eq_true.2 fun c hc => Nat.isDigit_of_mem_toDigits (by omega) (by omega) hc
  simp only [parseU64, if_neg hplus, Nat.ofDigitChars_ten_toDigits]
  exact if_pos ⟨Nat.toDigits_ne_nil, hdigits, h⟩

theorem useLine_eq (use : Use) : ∃ body, useLine use = body ++ ['\n'] ∧
    body = use.staticKey ++ ' ' :: (use.actionKey ++ ' ' :: Nat.toDigits 10 use.ms) :=
  ⟨_, by simp [useLine], rfl⟩

theorem Valid.not_mem {use : Use} (h : Valid use) {c : Char} (hc : c.isDigit = false) (hhex : ¬ ('a' ≤ c ∧ c ≤ 'f'))
    (hspace : c ≠ ' ') : c ∉ use.staticKey ++ ' ' :: (use.actionKey ++ ' ' :: Nat.toDigits 10 use.ms) := by
  simp [not_mem_of_validContentKey h.staticKey hc hhex, not_mem_of_validContentKey h.actionKey hc hhex,
    not_mem_toDigits hc, hspace]

theorem parseLine_body {use : Use} (h : Valid use) :
    parseLine (use.staticKey ++ ' ' :: (use.actionKey ++ ' ' :: Nat.toDigits 10 use.ms)) = some use := by
  have hspace : ∀ {key}, validContentKey key = true → ' ' ∉ key := fun hk =>
    not_mem_of_validContentKey hk (by decide) (by decide)
  have hsplit : (use.staticKey ++ ' ' :: (use.actionKey ++ ' ' :: Nat.toDigits 10 use.ms)).splitOn ' ' =
      [use.staticKey, use.actionKey, Nat.toDigits 10 use.ms] := by
    rw [List.splitOn_append_cons_self_of_not_mem (hspace h.staticKey),
      List.splitOn_append_cons_self_of_not_mem (hspace h.actionKey),
      List.splitOn_eq_singleton (not_mem_toDigits (by decide))]
  rw [parseLine, hsplit]
  simp [h.staticKey, h.actionKey, parseU64_toDigits h.ms]

/-- A line is read back. -/
theorem parseLines_useLine {use : Use} (h : Valid use) : parseLines (useLine use) = [use] := by
  obtain ⟨body, hline, hbody⟩ := useLine_eq use
  have hn : '\n' ∉ body := hbody ▸ h.not_mem (by decide) (by decide) (by decide)
  have hr : '\r' ∉ body := hbody ▸ h.not_mem (by decide) (by decide) (by decide)
  rw [hline, parseLines, Text.lines_cons hn hr, hbody, List.filterMap_cons_some (parseLine_body h)]
  rfl

theorem valid_of_mem_parseLines {text : Text} {use : Use} (h : use ∈ parseLines text) : Valid use := by
  obtain ⟨line, -, hline⟩ := List.mem_filterMap.1 h
  unfold parseLine at hline
  split at hline
  · next key action ms _ =>
    obtain ⟨hkeys, hms⟩ := Option.ite_none_right_eq_some.1 hline
    obtain ⟨n, hn, rfl⟩ := Option.map_eq_some_iff.1 hms
    obtain ⟨hk, ha⟩ := Bool.and_eq_true_iff.1 hkeys
    unfold parseU64 at hn
    obtain ⟨hdigits, hvalue⟩ := Option.ite_none_right_eq_some.1 hn
    obtain rfl := Option.some.inj hvalue
    exact ⟨hk, ha, hdigits.2.2⟩
  · cases hline

/-! ## A file -/

/-- What is appended starts a line. -/
def AtLineStart (text : Text) : Prop := text = [] ∨ text.getLast? = some '\n'

instance (text : Text) : Decidable (AtLineStart text) := inferInstanceAs (Decidable (_ ∨ _))

theorem lines_append_of_atLineStart {a : Text} (h : AtLineStart a) (b : Text) :
    Text.lines (a ++ b) = Text.lines a ++ Text.lines b := by
  rcases h with rfl | h
  · rfl
  · obtain ⟨a', rfl⟩ := List.getLast?_eq_some_iff.1 h
    rw [List.append_assoc, List.singleton_append, Text.lines_append]

theorem parseLines_append {a : Text} (h : AtLineStart a) (b : Text) :
    parseLines (a ++ b) = parseLines a ++ parseLines b := by
  rw [parseLines, lines_append_of_atLineStart h, List.filterMap_append]
  rfl

/-- A text up to its last line terminator. -/
def whole (text : Text) : Text := text.rdropWhile (· ≠ '\n')

/-- The uses that a file's whole lines tell of. -/
def wholeUses (text : Text) : List Use := parseLines (whole text)

theorem whole_atLineStart (text : Text) : AtLineStart (whole text) := by
  rcases List.eq_nil_or_concat' (whole text) with h | ⟨a, c, h⟩
  · exact .inl h
  · have hne : whole text ≠ [] := by simp [h]
    have hlast := List.rdropWhile_last_not (· ≠ '\n') text hne
    right
    rw [List.getLast?_eq_getLast_of_ne_nil hne]
    exact congrArg some (by simpa [whole] using hlast)

theorem whole_append_tail (text : Text) : ∃ tail, text = whole text ++ tail ∧ '\n' ∉ tail := by
  refine ⟨text.rtakeWhile (· ≠ '\n'), List.rdropWhile_append_rtakeWhile.symm, fun hmem => ?_⟩
  have := List.mem_rtakeWhile_imp hmem
  simp at this

theorem whole_of_atLineStart {a : Text} (h : AtLineStart a) : whole a = a := by
  rw [whole, List.rdropWhile_eq_self_iff]
  intro hne
  rcases h with rfl | h
  · exact absurd rfl hne
  · rw [List.getLast?_eq_getLast_of_ne_nil hne] at h
    simp [Option.some.inj h]

theorem whole_append {a : Text} (h : AtLineStart a) (b : Text) : whole (a ++ b) = a ++ whole b := by
  induction b using List.reverseRecOn with
  | nil => simpa [whole] using whole_of_atLineStart h
  | append_singleton b c ih =>
    simp only [whole] at ih ⊢
    rw [← List.append_assoc, List.rdropWhile_concat, List.rdropWhile_concat, ih]
    split
    · rfl
    · rw [List.append_assoc]

/-- What a file tells it goes on telling. -/
theorem wholeUses_append (a b : Text) : ∃ more, wholeUses (a ++ b) = wholeUses a ++ more := by
  obtain ⟨tail, ha, -⟩ := whole_append_tail a
  have hab : a ++ b = whole a ++ (tail ++ b) := by
    rw [← List.append_assoc, ← ha]
  refine ⟨parseLines (whole (tail ++ b)), ?_⟩
  rw [wholeUses, hab, whole_append (whole_atLineStart a), parseLines_append (whole_atLineStart a), wholeUses]

/-- What an interrupted writer leaves tells nothing. -/
theorem wholeUses_append_torn (a : Text) {torn : Text} (h : '\n' ∉ torn) : wholeUses (a ++ torn) = wholeUses a := by
  obtain ⟨tail, ha, htail⟩ := whole_append_tail a
  have hab : a ++ torn = whole a ++ (tail ++ torn) := by
    rw [← List.append_assoc, ← ha]
  have hnone : whole (tail ++ torn) = [] := by
    refine List.rdropWhile_eq_nil_iff.2 fun c hc => ?_
    have hne : c ≠ '\n' := by
      intro heq
      subst heq
      exact (List.mem_append.1 hc).elim htail h
    simpa using hne
  rw [wholeUses, hab, whole_append (whole_atLineStart a), hnone, List.append_nil, wholeUses]

/-- A line that starts a line is told. -/
theorem wholeUses_append_useLine {a : Text} (h : AtLineStart a) {use : Use} (hu : Valid use) :
    wholeUses (a ++ useLine use) = wholeUses a ++ [use] := by
  obtain ⟨body, hline, -⟩ := useLine_eq use
  have hend : AtLineStart (useLine use) := .inr (by simp [hline])
  rw [wholeUses, whole_append h, whole_of_atLineStart hend, parseLines_append h, parseLines_useLine hu, wholeUses,
    whole_of_atLineStart h]

/-- Reading a file finds what its whole lines tell. -/
theorem mem_parseLines_of_wholeUses {text : Text} {use : Use} (h : use ∈ wholeUses text) : use ∈ parseLines text := by
  obtain ⟨tail, ht, -⟩ := whole_append_tail text
  rw [ht, parseLines_append (whole_atLineStart text)]
  exact List.mem_append_left _ h

/-- Lines written together are read back one by one. -/
theorem parseLines_flatMap_useLine {uses : List Use} (h : ∀ use ∈ uses, Valid use) :
    parseLines (uses.flatMap useLine) = uses ∧ AtLineStart (uses.flatMap useLine) := by
  induction uses with
  | nil => exact ⟨rfl, .inl rfl⟩
  | cons use uses ih =>
    obtain ⟨ih, hstart⟩ := ih fun u hu => h u (List.mem_cons_of_mem _ hu)
    obtain ⟨body, hline, -⟩ := useLine_eq use
    have hend : AtLineStart (useLine use) := .inr (by simp [hline])
    rw [List.flatMap_cons, parseLines_append hend, parseLines_useLine (h use List.mem_cons_self), ih]
    refine ⟨rfl, .inr ?_⟩
    rcases hstart with hnil | hlast
    · simp [hnil, hline]
    · rw [List.getLast?_append, hlast]
      rfl

end Bellows.Access
