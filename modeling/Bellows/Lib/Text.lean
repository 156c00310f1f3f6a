/-
Text as a list of characters, with the string operations of Rust's standard
library that the parsers use: replacing every occurrence, splitting at the
first, splitting into lines.
-/
import Mathlib.Data.List.Infix

abbrev Text := List Char

instance : LawfulBEq Text := inferInstance

namespace Text

variable {α : Type} [DecidableEq α]

/-! ## Replacing -/

/-- `replace` with `skip` elements of an occurrence still to be dropped. -/
def replaceFrom (pat into : List α) : Nat → List α → List α
  | _, [] => []
  | skip + 1, _ :: rest => replaceFrom pat into skip rest
  | 0, c :: rest =>
    if pat <+: c :: rest then into ++ replaceFrom pat into (pat.length - 1) rest
    else c :: replaceFrom pat into 0 rest

/-- Every occurrence of the nonempty `pat` replaced by `into`, from the left,
without overlaps. -/
def replace (pat into text : List α) : List α := replaceFrom pat into 0 text

/-- `str::replace`: an empty pattern is found around every character. -/
def replaceAll (pat into text : List α) : List α :=
  if pat = [] then into ++ text.flatMap (· :: into) else replace pat into text

@[simp] theorem replace_nil (pat into : List α) : replace pat into [] = [] := rfl

/-- Where no occurrence starts, nothing is replaced. -/
theorem replace_append_of_clear {pat : List α} (into : List α) : ∀ {a b : List α},
    (∀ s, s <:+ a → s ≠ [] → ¬ pat <+: s ++ b) → replace pat into (a ++ b) = a ++ replace pat into b
  | [], _, _ => rfl
  | c :: a, b, h => by
    have hc : ¬ pat <+: c :: (a ++ b) := h (c :: a) (List.suffix_refl _) (by simp)
    have ih : replace pat into (a ++ b) = a ++ replace pat into b :=
      replace_append_of_clear into fun s hs => h s (hs.trans (List.suffix_cons c a))
    simp only [replace] at ih ⊢
    rw [List.cons_append, replaceFrom, if_neg hc, ih, List.cons_append]

theorem replaceFrom_skip (pat into : List α) : ∀ s text : List α,
    replaceFrom pat into s.length (s ++ text) = replaceFrom pat into 0 text
  | [], text => rfl
  | _ :: s, text => by
    rw [List.length_cons, List.cons_append, replaceFrom]
    exact replaceFrom_skip pat into s text

theorem replace_self_append {pat : List α} (into text : List α) (h : pat ≠ []) :
    replace pat into (pat ++ text) = into ++ replace pat into text := by
  cases pat with
  | nil => exact absurd rfl h
  | cons c pat =>
    have hp : c :: pat <+: c :: (pat ++ text) := ⟨text, by simp⟩
    simp only [replace]
    rw [List.cons_append, replaceFrom, if_pos hp, List.length_cons, Nat.add_sub_cancel, replaceFrom_skip]

omit [DecidableEq α] in
theorem prefix_append_cons {pat a b : List α} {c : α} (hc : c ∉ pat) :
    pat <+: a ++ c :: b ↔ pat <+: a := by
  refine ⟨fun h => ?_, fun h => h.trans (List.prefix_append _ _)⟩
  obtain ⟨r, hr⟩ := h
  rcases List.append_eq_append_iff.1 hr with ⟨a', ha, -⟩ | ⟨c', hp, hc'⟩
  · exact ⟨a', ha.symm⟩
  · cases c' with
    | nil => exact ⟨[], by simpa using hp⟩
    | cons d c' =>
      simp only [List.cons_append, List.cons.injEq] at hc'
      exact absurd (by rw [hp, hc'.1]; simp) hc

omit [DecidableEq α] in
/-- Two texts cut at their last separators. -/
theorem append_cons_inj {sep : α} {a b a' b' : List α} (ha : sep ∉ a') (hb : sep ∉ b')
    (h : a ++ sep :: a' = b ++ sep :: b') : a = b ∧ a' = b' := by
  have hcut : ∀ {x y c x' : List α}, sep ∉ x' → y = x ++ c → ∀ {y' : List α},
      sep :: x' = c ++ sep :: y' → c = [] := by
    intro x y c x' hx _ y' hc
    cases c with
    | nil => rfl
    | cons d c =>
      simp only [List.cons_append, List.cons.injEq] at hc
      exact absurd (by rw [hc.2]; simp) hx
  rcases List.append_eq_append_iff.1 h with ⟨c, hy, hc⟩ | ⟨c, hy, hc⟩
  · obtain rfl := hcut ha hy hc
    simp only [List.append_nil, List.nil_append, List.cons.injEq, true_and] at hy hc
    exact ⟨hy.symm, hc⟩
  · obtain rfl := hcut hb hy hc
    simp only [List.append_nil, List.nil_append, List.cons.injEq, true_and] at hy hc
    exact ⟨hy, hc.symm⟩

omit [DecidableEq α] in
/-- Two texts cut at their first separators. -/
theorem append_cons_inj_first {sep : α} {a b a' b' : List α} (ha : sep ∉ a) (hb : sep ∉ b)
    (h : a ++ sep :: a' = b ++ sep :: b') : a = b ∧ a' = b' := by
  have hrev : a'.reverse ++ sep :: a.reverse = b'.reverse ++ sep :: b.reverse := by
    simpa using congrArg List.reverse h
  obtain ⟨hafter, hbefore⟩ := append_cons_inj (by simpa using ha) (by simpa using hb) hrev
  exact ⟨List.reverse_injective hbefore, List.reverse_injective hafter⟩

/-- Lines that end in a separator are read back by splitting at it. -/
theorem splitOnP_flatMap_terminated {sep : α} : ∀ {pieces : List (List α)}, (∀ piece ∈ pieces, sep ∉ piece) →
    (pieces.flatMap fun piece => piece ++ [sep]).splitOnP (· == sep) = pieces ++ [[]]
  | [], _ => by simp
  | piece :: pieces, h => by
    have hpiece : piece.splitOnP (· == sep) = [piece] := by
      refine List.splitOnP_eq_singleton fun c hc => beq_eq_false_iff_ne.2 ?_
      rintro rfl
      exact h piece List.mem_cons_self hc
    have ih := splitOnP_flatMap_terminated fun other ho => h other (List.mem_cons_of_mem _ ho)
    rw [List.flatMap_cons, List.append_assoc, List.singleton_append,
      List.splitOnP_append_cons (p := (· == sep)) _ _ (beq_self_eq_true sep), hpiece, ih,
      List.singleton_append, List.cons_append]

theorem flatMap_terminated_inj {sep : α} {pieces others : List (List α)} (h : ∀ piece ∈ pieces, sep ∉ piece)
    (ho : ∀ piece ∈ others, sep ∉ piece)
    (heq : (pieces.flatMap fun piece => piece ++ [sep]) = others.flatMap fun piece => piece ++ [sep]) :
    pieces = others := by
  have hsplit := splitOnP_flatMap_terminated h
  rw [heq, splitOnP_flatMap_terminated ho] at hsplit
  exact (List.append_cancel_right hsplit).symm

/-- A character that the pattern does not contain cuts the text in two. -/
theorem replaceFrom_append_cons {pat into : List α} {c : α} (hpat : pat ≠ []) (hc : c ∉ pat) (b : List α) :
    ∀ (a : List α) {skip : Nat}, skip ≤ a.length →
      replaceFrom pat into skip (a ++ c :: b) = replaceFrom pat into skip a ++ c :: replace pat into b
  | [], 0, _ => by
    have hnot : ¬ pat <+: c :: b := fun h => hpat (by simpa using (prefix_append_cons (a := []) hc).1 h)
    simp only [List.nil_append, replaceFrom, if_neg hnot, replace]
  | d :: a, 0, _ => by
    have hiff : pat <+: d :: (a ++ c :: b) ↔ pat <+: d :: a := prefix_append_cons (a := d :: a) hc
    simp only [List.cons_append, replaceFrom, hiff]
    split
    · next h =>
      have hle : pat.length - 1 ≤ a.length := by have := h.length_le; simp only [List.length_cons] at this; omega
      rw [replaceFrom_append_cons hpat hc b a hle, List.append_assoc]
    · rw [replaceFrom_append_cons hpat hc b a (Nat.zero_le _), List.cons_append]
  | d :: a, skip + 1, h => by
    simp only [List.cons_append, replaceFrom]
    exact replaceFrom_append_cons hpat hc b a (by simpa using h)

theorem replace_append_cons {pat into : List α} {c : α} (hpat : pat ≠ []) (hc : c ∉ pat) (a b : List α) :
    replace pat into (a ++ c :: b) = replace pat into a ++ c :: replace pat into b :=
  replaceFrom_append_cons hpat hc b a (Nat.zero_le _)

/-! ## Prefixes and first occurrences -/

/-- `strip_prefix` -/
def stripPrefix? (pre text : List α) : Option (List α) :=
  if pre <+: text then some (text.drop pre.length) else none

@[simp] theorem stripPrefix?_append (pre text : List α) : stripPrefix? pre (pre ++ text) = some text := by
  simp [stripPrefix?]

theorem stripPrefix?_eq_some {pre text rest : List α} : stripPrefix? pre text = some rest ↔ text = pre ++ rest := by
  constructor
  · intro h
    unfold stripPrefix? at h
    split at h
    · next hpre =>
      obtain ⟨other, rfl⟩ := hpre
      simpa using h
    · cases h
  · rintro rfl
    exact stripPrefix?_append pre rest

theorem stripPrefix?_eq_none {pre text : List α} : stripPrefix? pre text = none ↔ ¬ pre <+: text := by
  simp [stripPrefix?]

/-- `split_once` at a nonempty pattern. -/
def splitOnce (pat : List α) : List α → Option (List α × List α)
  | [] => none
  | c :: rest =>
    if pat <+: c :: rest then some ([], (c :: rest).drop pat.length)
    else (splitOnce pat rest).map fun (before, after) => (c :: before, after)

/-- The first occurrence: nothing before it starts one. -/
theorem splitOnce_of_clear {pat : List α} (hpat : pat ≠ []) : ∀ {a b : List α},
    (∀ s, s <:+ a → s ≠ [] → ¬ pat <+: s ++ pat ++ b) → splitOnce pat (a ++ pat ++ b) = some (a, b)
  | [], b, _ => by
    cases pat with
    | nil => exact absurd rfl hpat
    | cons c pat =>
      have hp : c :: pat <+: c :: (pat ++ b) := ⟨b, by simp⟩
      simp [splitOnce]
  | c :: a, b, h => by
    have hc : ¬ pat <+: c :: (a ++ pat ++ b) := h (c :: a) (List.suffix_refl _) (by simp)
    have ih : splitOnce pat (a ++ pat ++ b) = some (a, b) :=
      splitOnce_of_clear hpat fun s hs => h s (hs.trans (List.suffix_cons c a))
    rw [List.cons_append, List.cons_append, splitOnce, if_neg hc, ih]
    rfl

theorem splitOnce_eq_none {pat : List α} (hpat : pat ≠ []) : ∀ {text : List α},
    splitOnce pat text = none ↔ ¬ pat <:+: text
  | [] => by simp [splitOnce, hpat]
  | c :: rest => by
    rw [splitOnce, List.infix_cons_iff]
    split
    · next h => simp [h]
    · next h => simp [h, splitOnce_eq_none hpat]

/-- A first occurrence stays the first when the text goes on. -/
theorem splitOnce_append {pat : List α} (hpat : pat ≠ []) : ∀ {a before after : List α} (b : List α),
    splitOnce pat a = some (before, after) → splitOnce pat (a ++ b) = some (before, after ++ b)
  | [], _, _, _, h => by simp [splitOnce] at h
  | c :: a, before, after, b, h => by
    rw [splitOnce] at h
    split at h
    · next hp =>
      simp only [Option.some.injEq, Prod.mk.injEq] at h
      obtain ⟨rfl, rfl⟩ := h
      have hp' : pat <+: c :: (a ++ b) := hp.trans ⟨b, by simp⟩
      rw [List.cons_append, splitOnce, if_pos hp', ← List.cons_append,
        List.drop_append_of_le_length hp.length_le]
    · next hp =>
      obtain ⟨⟨x, y⟩, hxy, he⟩ := Option.map_eq_some_iff.1 h
      simp only [Prod.mk.injEq] at he
      obtain ⟨rfl, rfl⟩ := he
      -- The pattern fits into what is left, so it cannot reach into `b`.
      have hlen : pat.length ≤ a.length := by
        have : pat <:+: a := by
          by_contra hn
          rw [(splitOnce_eq_none hpat).2 hn] at hxy
          cases hxy
        exact this.length_le
      have hp' : ¬ pat <+: c :: (a ++ b) := fun hpre =>
        hp (List.prefix_of_prefix_length_le hpre (List.prefix_append (c :: a) b)
          (hlen.trans (Nat.le_succ _)))
      rw [List.cons_append, splitOnce, if_neg hp', splitOnce_append hpat b hxy]
      rfl

/-! ## Lines -/

/-- `split_inclusive('\n')` -/
def splitInclusive : Text → List Text
  | [] => []
  | c :: rest =>
    if c = '\n' then [c] :: splitInclusive rest
    else match splitInclusive rest with
      | [] => [[c]]
      | line :: lines => (c :: line) :: lines

/-- A line without its terminator, "\n" or "\r\n"; an unterminated line as it is. -/
def chomp (line : Text) : Text :=
  if line.getLast? = some '\n' then
    let line := line.dropLast
    if line.getLast? = some '\r' then line.dropLast else line
  else line

/-- `str::lines` -/
def lines (text : Text) : List Text := (splitInclusive text).map chomp

theorem splitInclusive_append (b : Text) : ∀ a : Text,
    splitInclusive (a ++ '\n' :: b) = splitInclusive (a ++ ['\n']) ++ splitInclusive b
  | [] => by simp [splitInclusive]
  | c :: a => by
    simp only [List.cons_append, splitInclusive, splitInclusive_append b a]
    split
    · rfl
    · have hne : splitInclusive (a ++ ['\n']) ≠ [] := by
        cases a with
        | nil => simp [splitInclusive]
        | cons d a =>
          simp only [List.cons_append, splitInclusive]
          split
          · simp
          · split <;> simp
      obtain ⟨line, lines, he⟩ := List.exists_cons_of_ne_nil hne
      simp only [he, List.cons_append]

/-- Lines of a text cut after a line terminator. -/
theorem lines_append (a b : Text) : lines (a ++ '\n' :: b) = lines (a ++ ['\n']) ++ lines b := by
  rw [lines, splitInclusive_append, List.map_append]; rfl

/-- The last line: what it is does not depend on how it goes on. -/
theorem splitInclusive_last {c : Char} (hc : c ≠ '\n') : ∀ a : Text, ∃ done last, ∀ b : Text, '\n' ∉ b →
    splitInclusive (a ++ c :: b) = done ++ [last ++ c :: b] ∧
      splitInclusive (a ++ c :: b ++ ['\n']) = done ++ [last ++ c :: b ++ ['\n']]
  | [] => by
    refine ⟨[], [], fun b hb => ?_⟩
    have hline : ∀ (b : Text), '\n' ∉ b → ∀ d : Char, d ≠ '\n' →
        splitInclusive (d :: b) = [d :: b] ∧ splitInclusive (d :: b ++ ['\n']) = [d :: b ++ ['\n']] := by
      intro b hb
      induction b with
      | nil => intro d hd; simp [splitInclusive, hd]
      | cons e b ih =>
        intro d hd
        simp only [List.mem_cons, not_or] at hb
        obtain ⟨h1, h2⟩ := ih hb.2 e (Ne.symm hb.1)
        refine ⟨?_, ?_⟩
        · rw [splitInclusive, if_neg hd, h1]
        · simp only [List.cons_append] at h2 ⊢
          rw [splitInclusive, if_neg hd, h2]
    exact hline b hb c hc
  | d :: a => by
    obtain ⟨done, last, h⟩ := splitInclusive_last hc a
    by_cases hd : d = '\n'
    · refine ⟨[d] :: done, last, fun b hb => ?_⟩
      simp only [List.cons_append, splitInclusive, if_pos hd]
      exact ⟨by rw [(h b hb).1], by rw [← List.cons_append, (h b hb).2]; rfl⟩
    · cases done with
      | nil =>
        refine ⟨[], d :: last, fun b hb => ?_⟩
        have ⟨h1, h2⟩ := h b hb
        simp only [List.cons_append, List.nil_append, List.append_assoc] at h1 h2 ⊢
        simp only [splitInclusive, if_neg hd, h1, h2, and_self]
      | cons line done =>
        refine ⟨(d :: line) :: done, last, fun b hb => ?_⟩
        have ⟨h1, h2⟩ := h b hb
        simp only [List.cons_append, List.append_assoc] at h1 h2 ⊢
        simp only [splitInclusive, if_neg hd, h1, h2, and_self]

theorem chomp_of_open {line : Text} (h : line.getLast? ≠ some '\n') : chomp line = line := by
  rw [chomp, if_neg h]

theorem chomp_terminated {line : Text} (h : line.getLast? ≠ some '\r') : chomp (line ++ ['\n']) = line := by
  simp [chomp, h]

theorem lines_last {c : Char} (hc : c ≠ '\n') (a : Text) : ∃ done last, ∀ b : Text, '\n' ∉ b →
    (c :: b).getLast? ≠ some '\r' →
    lines (a ++ c :: b) = done ++ [last ++ c :: b] ∧
      lines (a ++ c :: b ++ ['\n']) = done ++ [last ++ c :: b] := by
  obtain ⟨done, last, h⟩ := splitInclusive_last hc a
  refine ⟨done.map chomp, last, fun b hb hr => ?_⟩
  obtain ⟨h1, h2⟩ := h b hb
  have hend : (last ++ c :: b).getLast? = (c :: b).getLast? := by
    rw [List.getLast?_append, List.getLast?_cons, Option.some_or]
  have hopen : (last ++ c :: b).getLast? ≠ some '\n' := by
    rw [hend]
    intro he
    have := List.mem_of_getLast? he
    exact (List.mem_cons.1 this).elim (fun h => hc h.symm) hb
  have hterm : (last ++ c :: b).getLast? ≠ some '\r' := by rw [hend]; exact hr
  refine ⟨?_, ?_⟩
  · rw [lines, h1, List.map_append, List.map_singleton, chomp_of_open hopen]
  · rw [lines, h2, List.map_append, List.map_singleton, chomp_terminated hterm]

/-- A whole line. -/
theorem lines_cons {a : Text} (hn : '\n' ∉ a) (hr : '\r' ∉ a) (b : Text) :
    lines (a ++ '\n' :: b) = a :: lines b := by
  have hsplit : splitInclusive (a ++ ['\n']) = [a ++ ['\n']] := by
    induction a with
    | nil => simp [splitInclusive]
    | cons c a ih =>
      simp only [List.mem_cons, not_or] at hn hr
      rw [List.cons_append, splitInclusive, if_neg (Ne.symm hn.1), ih hn.2 hr.2]
  have hlast : a.getLast? ≠ some '\r' := fun h => hr (List.mem_of_getLast? h)
  rw [lines_append, lines, hsplit, List.map_singleton, chomp_terminated hlast]
  rfl

/-- A text of one line, unterminated. -/
theorem lines_single {a : Text} (hne : a ≠ []) (hn : '\n' ∉ a) : lines a = [a] := by
  have hsplit : splitInclusive a = [a] := by
    induction a with
    | nil => exact absurd rfl hne
    | cons c a ih =>
      simp only [List.mem_cons, not_or] at hn
      cases a with
      | nil => simp [splitInclusive, Ne.symm hn.1]
      | cons d a =>
        rw [splitInclusive, if_neg (Ne.symm hn.1), ih (by simp) hn.2]
  rw [lines, hsplit, List.map_singleton, chomp_of_open fun h => hn (List.mem_of_getLast? h)]

end Text
