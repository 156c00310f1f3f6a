/-
Dep-info rewritten for another checkout (`rewrite_dep_info`), and read back.

The files of a rule are split into words, mapped and joined again; comments
stay as they are. What is read back from it is what was read before, mapped,
as long as the words that come out of the map can stand in a rule (`RuleOk`)
and the rule is still cut at its own colon (`CutsAtColon`).
-/
import Mathlib.Data.List.Chain
import Bellows.Core.DepInfoFacts
import Bellows.Lib.Buffered

namespace Bellows.Core

open Text

/-- `trim_end_matches(['\r', '\n'])` -/
def trimEndOfLine (line : Text) : Text := (line.reverse.dropWhile fun c => c = '\r' || c = '\n').reverse

/-- The line's own ending. -/
def endOfLine (line : Text) : Text :=
  if ['\r', '\n'] <:+ line then ['\r', '\n'] else if ['\n'] <:+ line then ['\n'] else []

/-- `strip_suffix(':')` -/
def stripColon? (body : Text) : Option Text := if body.getLast? = some ':' then some body.dropLast else none

/-- Words with their spaces escaped, one space between them. -/
def joinWords (words : List Text) : Text := [' '].intercalate (words.map (replace [' '] ['\\', ' ']))

def rewriteWords (rewrite : Text → Text) (words : Text) : Text := joinWords ((splitMakefileWords words).map rewrite)

def rewriteBody (rewrite : Text → Text) (body : Text) : Text :=
  if body.head? = some '#' then body
  else match splitOnce [':', ' '] body with
    | some (targets, dependencies) =>
      rewriteWords rewrite targets ++ [':', ' '] ++ rewriteWords rewrite dependencies
    | none =>
      match stripColon? body with
      | some target => rewriteWords rewrite target ++ [':']
      | none => body

def rewriteLine (rewrite : Text → Text) (line : Text) : Text :=
  rewriteBody rewrite (trimEndOfLine line) ++ endOfLine line

def rewriteDepInfo (text : Text) (rewrite : Text → Text) : Text :=
  (splitInclusive (joinLines text)).flatMap (rewriteLine rewrite)

/-! ## What rustc writes, and what must be kept of it -/

/-- A word that can stand in a rule. -/
structure WordOk (word : Text) : Prop where
  nonempty : word ≠ []
  spaces : ∀ c ∈ word, isWhitespace c = true → c = ' '
  noTrailingBackslash : word.getLast? ≠ some '\\'

/-- The words of a rule, before and after its colon. -/
structure RuleOk (targets dependencies : List Text) : Prop where
  words : ∀ word ∈ targets ++ dependencies, WordOk word
  /-- It does not read as a comment. -/
  noComment : targets.head?.bind List.head? ≠ some '#'

/-- With one space between a rule's targets, its colon is the first one before
a space. -/
def CutsAtColon (targets : List Text) : Prop := ∀ word ∈ targets.dropLast, word.getLast? ≠ some ':'

/-- The rule in a line: its targets, and what depends on them. -/
def ruleOf (line : Text) : Option (List Text × List Text) :=
  match splitOnce [':', ' '] line with
  | some (targets, dependencies) => some (splitMakefileWords targets, splitMakefileWords dependencies)
  | none => (stripColon? line).map fun target => (splitMakefileWords target, [])

/-- A line of rustc's, without its ending. -/
structure RustcLine (line : Text) : Prop where
  noTrailingBackslash : line.getLast? ≠ some '\\'
  noCarriageReturn : line.getLast? ≠ some '\r'
  comment : line.head? = some '#' → envDepPrefix <+: line ∨ splitOnce [':', ' '] line = none
  rule : line.head? ≠ some '#' → ∀ r, ruleOf line = some r → RuleOk r.1 r.2

/-- The map keeps a line's rule a rule. -/
def Keeps (rewrite : Text → Text) (line : Text) : Prop :=
  line.head? ≠ some '#' → ∀ r, ruleOf line = some r → RuleOk r.1 r.2 →
    RuleOk (r.1.map rewrite) (r.2.map rewrite)

/-- The map keeps the colon of a line's rule. -/
def KeepsColon (rewrite : Text → Text) (line : Text) : Prop :=
  line.head? ≠ some '#' → ∀ r, ruleOf line = some r → CutsAtColon (r.1.map rewrite)

/-- What may be asked of a line and a map. -/
structure Rewritable (rewrite : Text → Text) (line : Text) : Prop where
  rustc : RustcLine line
  keeps : Keeps rewrite line
  colon : KeepsColon rewrite line

instance (word : Text) : Decidable (WordOk word) :=
  have : Decidable (∀ c ∈ word, isWhitespace c = true → c = ' ') := List.decidableBAll _ _
  decidable_of_iff (word ≠ [] ∧ (∀ c ∈ word, isWhitespace c = true → c = ' ') ∧ word.getLast? ≠ some '\\')
    ⟨fun ⟨h, h', h''⟩ => ⟨h, h', h''⟩, fun ⟨h, h', h''⟩ => ⟨h, h', h''⟩⟩

instance (targets dependencies : List Text) : Decidable (RuleOk targets dependencies) :=
  decidable_of_iff ((∀ word ∈ targets ++ dependencies, WordOk word) ∧ targets.head?.bind List.head? ≠ some '#')
    ⟨fun ⟨h, h'⟩ => ⟨h, h'⟩, fun ⟨h, h'⟩ => ⟨h, h'⟩⟩

instance (targets : List Text) : Decidable (CutsAtColon targets) := List.decidableBAll _ _

instance (line : Text) : Decidable (RustcLine line) :=
  decidable_of_iff (line.getLast? ≠ some '\\' ∧ line.getLast? ≠ some '\r' ∧
      (line.head? = some '#' → envDepPrefix <+: line ∨ splitOnce [':', ' '] line = none) ∧
      (line.head? ≠ some '#' → ∀ r ∈ ruleOf line, RuleOk r.1 r.2))
    ⟨fun ⟨h, h', h'', h'''⟩ => ⟨h, h', h'', h'''⟩, fun ⟨h, h', h'', h'''⟩ => ⟨h, h', h'', h'''⟩⟩

instance (rewrite : Text → Text) (line : Text) : Decidable (Keeps rewrite line) :=
  inferInstanceAs (Decidable (line.head? ≠ some '#' → ∀ r ∈ ruleOf line, RuleOk r.1 r.2 →
    RuleOk (r.1.map rewrite) (r.2.map rewrite)))

instance (rewrite : Text → Text) (line : Text) : Decidable (KeepsColon rewrite line) :=
  inferInstanceAs (Decidable (line.head? ≠ some '#' → ∀ r ∈ ruleOf line, CutsAtColon (r.1.map rewrite)))

/-! ## Words split and joined -/

theorem replace_space (word : Text) : replace [' '] ['\\', ' '] word = escapeDepFilename word := by
  induction word with
  | nil => rfl
  | cons c word ih =>
    simp only [replace, escapeDepFilename] at ih
    simp only [replace, replaceFrom, escapeDepFilename, List.flatMap_cons, List.length_singleton, Nat.sub_self, ih]
    by_cases hc : c = ' '
    · simp [hc]
    · simp [hc, eq_comm]

/-- Words that can stand in a rule are rustc's file names. -/
theorem exists_files {words : List Text} (h : ∀ word ∈ words, WordOk word) : ∃ files : List DepFile,
    files.map (·.name) = words ∧ joinWords words = joinedFiles files ∧ ∀ f ∈ files, f.Spaced := by
  have hfiles : ∃ files : List DepFile, files.map (·.name) = words ∧ ∀ f ∈ files, f.Spaced := by
    induction words with
    | nil => exact ⟨[], rfl, by simp⟩
    | cons word words ih =>
      obtain ⟨hword, hwords⟩ := List.forall_mem_cons.1 h
      obtain ⟨files, hnames, hspaced⟩ := ih hwords
      have hline : '\n' ∉ word ∧ '\r' ∉ word :=
        ⟨fun hc => absurd (hword.spaces _ hc (by decide)) (by decide),
          fun hc => absurd (hword.spaces _ hc (by decide)) (by decide)⟩
      refine ⟨⟨word, hword.nonempty, hline, hword.noTrailingBackslash⟩ :: files, by simp [hnames], ?_⟩
      exact List.forall_mem_cons.2 ⟨hword.spaces, hspaced⟩
  obtain ⟨files, hnames, hspaced⟩ := hfiles
  refine ⟨files, hnames, ?_, hspaced⟩
  simp only [joinWords, joinedFiles, ← hnames, List.map_map, Function.comp_def, replace_space]

theorem splitMakefileWords_joinWords {words : List Text} (h : ∀ word ∈ words, WordOk word) :
    splitMakefileWords (joinWords words) = words := by
  obtain ⟨files, hnames, hjoin, hspaced⟩ := exists_files h
  rw [hjoin, splitMakefileWords_joined hspaced, hnames]

/-- Joined words stay on their line. -/
theorem joinWords_line {words : List Text} (h : ∀ word ∈ words, WordOk word) : '\n' ∉ joinWords words ∧
    '\r' ∉ joinWords words ∧ (' ' :: joinWords words).getLast? ≠ some '\\' := by
  obtain ⟨files, -, hjoin, -⟩ := exists_files h
  obtain ⟨hn, hr, hb⟩ := joinedFiles_line files
  rw [hjoin]
  exact ⟨fun h => hn (List.mem_cons_of_mem _ h), fun h => hr (List.mem_cons_of_mem _ h), hb⟩

/-! ## The colon of a rule -/

/-- No colon stands before a space. -/
def NoColon (text : Text) : Prop := text.IsChain fun a b => ¬ (a = ':' ∧ b = ' ')

theorem NoColon.append {a b : Text} (ha : NoColon a) (hb : NoColon b)
    (h : a.getLast? ≠ some ':' ∨ b.head? ≠ some ' ') : NoColon (a ++ b) := by
  refine List.isChain_append.2 ⟨ha, hb, ?_⟩
  intro x hx y hy hxy
  obtain ⟨rfl, rfl⟩ := hxy
  exact h.elim (fun h => h hx) (fun h => h hy)

theorem NoColon.not_pair {text : Text} (h : NoColon text) : ¬ [':', ' '] <:+: text := by
  intro hin
  have hpair := List.IsChain.infix h hin
  simp at hpair

theorem noColon_escape (word : Text) : NoColon (escapeDepFilename word) ∧ (escapeDepFilename word).head? ≠ some ' ' := by
  induction word with
  | nil => exact ⟨List.isChain_nil, by simp [escapeDepFilename]⟩
  | cons c word ih =>
    have hcons : escapeDepFilename (c :: word) = (if c = ' ' then ['\\', ' '] else [c]) ++ escapeDepFilename word := rfl
    rw [hcons]
    refine ⟨NoColon.append ?_ ih.1 (.inr ih.2), ?_⟩
    · split <;> simp [NoColon]
    · split
      · simp
      · next hc => simpa using hc

theorem escapeDepFilename_getLast_colon {word : Text} (h : word.getLast? ≠ some ':') :
    (escapeDepFilename word).getLast? ≠ some ':' := by
  cases word using List.reverseRecOn with
  | nil => simp [escapeDepFilename]
  | append_singleton name c _ =>
    simp only [List.getLast?_append, List.getLast?_singleton, Option.some_or, ne_eq, Option.some.injEq] at h
    simp only [escapeDepFilename, List.flatMap_append, List.flatMap_singleton, List.getLast?_append]
    split <;> simp [h]

/-- Only the last of a rule's targets may end in a colon. -/
theorem noColon_joinWords : ∀ {words : List Text}, CutsAtColon words → NoColon (joinWords words)
  | [], _ => List.isChain_nil
  | [word], _ => by
    have hjoin : joinWords [word] = escapeDepFilename word := by simp [joinWords, List.intercalate, replace_space]
    rw [hjoin]
    exact (noColon_escape word).1
  | word :: next :: words, h => by
    have hjoin : joinWords (word :: next :: words) =
        escapeDepFilename word ++ ([' '] ++ joinWords (next :: words)) := by
      simp [joinWords, List.intercalate, replace_space]
    rw [CutsAtColon, List.dropLast_cons_cons] at h
    obtain ⟨hword, hwords⟩ := List.forall_mem_cons.1 h
    rw [hjoin]
    refine NoColon.append (noColon_escape word).1 ?_ (.inl (escapeDepFilename_getLast_colon hword))
    exact NoColon.append (by simp [NoColon]) (noColon_joinWords hwords) (.inl (by simp))

/-- A rule's line is cut at its own colon. -/
theorem splitOnce_rule {targets : Text} (h : NoColon targets) (dependencies : Text) :
    splitOnce [':', ' '] (targets ++ [':', ' '] ++ dependencies) = some (targets, dependencies) := by
  apply splitOnce_of_clear (by simp)
  intro s hs hne hp
  match s, hne with
  | [c], _ =>
    obtain ⟨r, hr⟩ := hp
    simp at hr
  | c :: d :: s, _ =>
    have hp' : [':', ' '] <+: c :: d :: s :=
      List.prefix_of_prefix_length_le hp ⟨[':', ' '] ++ dependencies, by simp⟩ (by simp)
    exact h.not_pair (hp'.isInfix.trans hs.isInfix)

/-! ## What a rewritten line says -/

theorem joinWords_head {words : List Text} (hwords : ∀ word ∈ words, WordOk word)
    (h : words.head?.bind List.head? ≠ some '#') : (joinWords words).head? ≠ some '#' := by
  cases words with
  | nil => simp [joinWords]
  | cons word words =>
    have hjoin : ∃ rest, joinWords (word :: words) = escapeDepFilename word ++ rest := by
      cases words with
      | nil => exact ⟨[], by simp [joinWords, List.intercalate, replace_space]⟩
      | cons next words => exact ⟨' ' :: joinWords (next :: words), by simp [joinWords, List.intercalate, replace_space]⟩
    obtain ⟨rest, hrest⟩ := hjoin
    cases word with
    | nil => exact absurd rfl (hwords [] List.mem_cons_self).nonempty
    | cons c word =>
      have hc : c ≠ '#' := by simpa using h
      rw [hrest, escapeDepFilename, List.flatMap_cons]
      split <;> simp [hc]

/-- A rewritten rule does not read as a comment. -/
theorem rule_head {words : List Text} (hwords : ∀ word ∈ words, WordOk word)
    (h : words.head?.bind List.head? ≠ some '#') (rest : Text) : (joinWords words ++ ':' :: rest).head? ≠ some '#' := by
  have hhead := joinWords_head hwords h
  cases hjoin : joinWords words with
  | nil => simp
  | cons c word =>
    rw [hjoin] at hhead
    simpa using hhead

theorem not_envDep {line : Text} (h : line.head? ≠ some '#') : ¬ envDepPrefix <+: line := by
  intro ⟨rest, hrest⟩
  rw [← hrest] at h
  exact h rfl

theorem envOf_eq_none {line : Text} (h : line.head? ≠ some '#') : envOf line = none := by
  rw [envOf, stripPrefix?_eq_none.2 (not_envDep h)]
  rfl

/-- A line's own form, and what it is rewritten to. -/
inductive Rewritten (rewrite : Text → Text) (line : Text) : Text → Prop
  | comment : line.head? = some '#' → (envDepPrefix <+: line ∨ splitOnce [':', ' '] line = none) →
      Rewritten rewrite line line
  | rule {targets dependencies : Text} : line.head? ≠ some '#' →
      splitOnce [':', ' '] line = some (targets, dependencies) →
      RuleOk ((splitMakefileWords targets).map rewrite) ((splitMakefileWords dependencies).map rewrite) →
      CutsAtColon ((splitMakefileWords targets).map rewrite) →
      Rewritten rewrite line (rewriteWords rewrite targets ++ [':', ' '] ++ rewriteWords rewrite dependencies)
  | targets {targets : Text} : line.head? ≠ some '#' → splitOnce [':', ' '] line = none →
      RuleOk ((splitMakefileWords targets).map rewrite) [] → CutsAtColon ((splitMakefileWords targets).map rewrite) →
      Rewritten rewrite line (rewriteWords rewrite targets ++ [':'])
  | other : line.head? ≠ some '#' → splitOnce [':', ' '] line = none → Rewritten rewrite line line

theorem rewriteBody_rewritten {rewrite : Text → Text} {line : Text} (h : Rewritable rewrite line) :
    Rewritten rewrite line (rewriteBody rewrite line) := by
  unfold rewriteBody
  split
  · next hcomment => exact .comment hcomment (h.rustc.comment hcomment)
  · next hrule =>
    have hok (r : List Text × List Text) (hr : ruleOf line = some r) :
        RuleOk (r.1.map rewrite) (r.2.map rewrite) ∧ CutsAtColon (r.1.map rewrite) :=
      ⟨h.keeps hrule r hr (h.rustc.rule hrule r hr), h.colon hrule r hr⟩
    split
    · next targets dependencies hsplit =>
      obtain ⟨hwords, hcolon⟩ := hok (splitMakefileWords targets, splitMakefileWords dependencies)
        (by rw [ruleOf, hsplit])
      exact .rule hrule hsplit hwords hcolon
    · next hsplit =>
      split
      · next target hstrip =>
        obtain ⟨hwords, hcolon⟩ := hok (splitMakefileWords target, []) (by rw [ruleOf, hsplit, hstrip]; rfl)
        exact .targets hrule hsplit hwords hcolon
      · exact .other hrule hsplit

theorem Rewritten.ruleWords {rewrite : Text → Text} {line result : Text} (h : Rewritten rewrite line result) :
    ruleWords result = (ruleWords line).map rewrite := by
  cases h with
  | comment hhead hcomment =>
    unfold Core.ruleWords
    split
    · rfl
    · next hnot => rw [hcomment.resolve_left hnot]; rfl
  | @rule targets dependencies hhead hsplit hok hcolon =>
    obtain ⟨htargets, hdependencies⟩ := List.forall_mem_append.1 hok.words
    have hhead' : ¬ envDepPrefix <+: rewriteWords rewrite targets ++ [':', ' '] ++ rewriteWords rewrite dependencies := by
      rw [List.append_assoc]
      exact not_envDep (rule_head htargets hok.noComment _)
    have hcut : splitOnce [':', ' '] (rewriteWords rewrite targets ++ [':', ' '] ++ rewriteWords rewrite dependencies) =
        some (rewriteWords rewrite targets, rewriteWords rewrite dependencies) :=
      splitOnce_rule (noColon_joinWords hcolon) _
    rw [Core.ruleWords, if_neg hhead', hcut, Core.ruleWords, if_neg (not_envDep hhead), hsplit]
    exact splitMakefileWords_joinWords hdependencies
  | @targets targets hhead hsplit hok hcolon =>
    have htargets := (List.forall_mem_append.1 hok.words).1
    have hnone : splitOnce [':', ' '] (rewriteWords rewrite targets ++ [':']) = none := by
      rw [splitOnce_eq_none (by simp)]
      exact (NoColon.append (noColon_joinWords hcolon) (by simp [NoColon]) (.inr (by simp))).not_pair
    have hhead' : ¬ envDepPrefix <+: rewriteWords rewrite targets ++ [':'] :=
      not_envDep (rule_head htargets hok.noComment [])
    rw [Core.ruleWords, if_neg hhead', hnone, Core.ruleWords, if_neg (not_envDep hhead), hsplit]
    rfl
  | other hhead hsplit =>
    rw [Core.ruleWords, hsplit]
    split <;> rfl

theorem Rewritten.envOf {rewrite : Text → Text} {line result : Text} (h : Rewritten rewrite line result) :
    envOf result = envOf line := by
  cases h with
  | comment => rfl
  | @rule targets dependencies hhead hsplit hok =>
    have htargets := (List.forall_mem_append.1 hok.words).1
    have hhead' := rule_head htargets hok.noComment (' ' :: rewriteWords rewrite dependencies)
    rw [envOf_eq_none hhead, List.append_assoc]
    exact envOf_eq_none hhead'
  | @targets targets hhead hsplit hok =>
    have htargets := (List.forall_mem_append.1 hok.words).1
    rw [envOf_eq_none hhead]
    exact envOf_eq_none (rule_head htargets hok.noComment [])
  | other => rfl

/-- A rewritten line stays one line, and is not continued. -/
theorem Rewritten.oneLine {rewrite : Text → Text} {line result : Text} (hline : RustcLine line)
    (hn : '\n' ∉ line) (h : Rewritten rewrite line result) :
    '\n' ∉ result ∧ result.getLast? ≠ some '\\' ∧ result.getLast? ≠ some '\r' ∧ (line ≠ [] → result ≠ []) := by
  cases h with
  | comment => exact ⟨hn, hline.noTrailingBackslash, hline.noCarriageReturn, id⟩
  | @rule targets dependencies hhead hsplit hok =>
    obtain ⟨htargets, hdependencies⟩ := List.forall_mem_append.1 hok.words
    obtain ⟨htn, -, -⟩ := joinWords_line htargets
    obtain ⟨hdn, hdr, hdlast⟩ := joinWords_line hdependencies
    have hlast : (rewriteWords rewrite targets ++ [':', ' '] ++ rewriteWords rewrite dependencies).getLast? =
        (' ' :: rewriteWords rewrite dependencies).getLast? := by
      rw [List.append_assoc, List.getLast?_append]
      simp [List.getLast?_cons]
    refine ⟨by simp [rewriteWords, htn, hdn], by rw [hlast]; exact hdlast, ?_, by simp⟩
    rw [hlast]
    intro hcr
    rcases List.mem_cons.1 (List.mem_of_getLast? hcr) with h | h
    · exact absurd h (by decide)
    · exact hdr h
  | @targets targets hhead hsplit hok =>
    obtain ⟨htn, -, -⟩ := joinWords_line (List.forall_mem_append.1 hok.words).1
    exact ⟨by simp [rewriteWords, htn], by simp, by simp, by simp⟩
  | other => exact ⟨hn, hline.noTrailingBackslash, hline.noCarriageReturn, id⟩

/-! ## Lines -/

theorem splitInclusive_eq (text : Text) : splitInclusive text = Buffered.splitInclusive '\n' text := by
  induction text with
  | nil => rfl
  | cons c text ih =>
    rw [splitInclusive, Buffered.splitInclusive, ih]
    cases Buffered.splitInclusive '\n' text with
    | nil => rfl
    | cons line lines => rfl

theorem not_suffix_of_getLast {pat text : Text} (hne : pat ≠ []) (h : pat.getLast? ≠ text.getLast?) :
    ¬ pat <:+ text := by
  intro ⟨before, hbefore⟩
  apply h
  rw [← hbefore, List.getLast?_append_of_ne_nil _ hne]

/-- A line with its ending, neither of which the other runs into. -/
theorem trimEndOfLine_append {body ending : Text} (hend : ending = [] ∨ ending = ['\n'] ∨ ending = ['\r', '\n'])
    (hn : '\n' ∉ body) (hr : body.getLast? ≠ some '\r') :
    trimEndOfLine (body ++ ending) = body ∧ chomp (body ++ ending) = body ∧ endOfLine (body ++ ending) = ending := by
  cases body using List.reverseRecOn with
  | nil => rcases hend with rfl | rfl | rfl <;> decide
  | append_singleton body c =>
    have hcn : c ≠ '\n' := by
      rintro rfl
      simp at hn
    have hcr : c ≠ '\r' := by simpa using hr
    rcases hend with rfl | rfl | rfl
    · refine ⟨?_, ?_, ?_⟩
      · simp [trimEndOfLine, hcn, hcr]
      · simp [chomp, hcn]
      · rw [endOfLine, if_neg (not_suffix_of_getLast (by simp) (by simpa [eq_comm] using hcn)),
          if_neg (not_suffix_of_getLast (by simp) (by simpa [eq_comm] using hcn))]
    · refine ⟨?_, ?_, ?_⟩
      · simp [trimEndOfLine, hcn, hcr]
      · simp [chomp, hcr]
      · have hcrlf : ¬ ['\r', '\n'] <:+ body ++ [c] ++ ['\n'] := by
          intro h
          have hsuffix : ['\r'] <:+ body ++ [c] := List.suffix_append_self_iff.1 h
          exact not_suffix_of_getLast (by simp) (by simpa [eq_comm] using hcr) hsuffix
        rw [endOfLine, if_neg hcrlf, if_pos (List.suffix_append _ _)]
    · refine ⟨?_, ?_, ?_⟩
      · simp [trimEndOfLine, hcn, hcr]
      · simp [chomp]
      · rw [endOfLine, if_pos (List.suffix_append _ _)]

/-- A piece of a text cut into lines: a line without its ending, and that. -/
theorem exists_ending {text piece : Text} (h : piece ∈ splitInclusive text) : ∃ ending,
    piece = chomp piece ++ ending ∧ '\n' ∉ chomp piece ∧
      (ending = [] ∧ '\n' ∉ piece ∧ piece ≠ [] ∨ ending = ['\n'] ∨ ending = ['\r', '\n']) := by
  have hcut := Buffered.cut_splitInclusive '\n' text
  rw [← splitInclusive_eq] at hcut
  generalize splitInclusive text = pieces at h hcut
  induction hcut with
  | nil => cases h
  | last hopen hne =>
    obtain rfl := List.mem_singleton.1 h
    have hchomp : chomp piece = piece := chomp_of_open fun hlast => hopen (List.mem_of_getLast? hlast)
    exact ⟨[], by rw [hchomp, List.append_nil], by rwa [hchomp], .inl ⟨rfl, hopen, hne⟩⟩
  | @line body pieces hbody _ ih =>
    rcases List.mem_cons.1 h with rfl | h
    · by_cases hcr : body.getLast? = some '\r'
      · obtain ⟨start, rfl⟩ := List.getLast?_eq_some_iff.1 hcr
        have hchomp : chomp (start ++ ['\r'] ++ ['\n']) = start := by simp [chomp]
        exact ⟨['\r', '\n'], by rw [hchomp]; simp, by rw [hchomp]; simp at hbody; exact hbody, .inr (.inr rfl)⟩
      · rw [chomp_terminated hcr]
        exact ⟨['\n'], rfl, hbody, .inr (.inl rfl)⟩
    · exact ih h

/-- A line that does not end in a backslash, with either ending, is not continued. -/
theorem joinLines_piece {a : Text} (hn : '\n' ∉ a) (hlf : ¬ ['\\'] <:+ a) (hcrlf : ¬ ['\\', '\r'] <:+ a) (b : Text) :
    joinLines (a ++ '\n' :: b) = a ++ '\n' :: joinLines b := by
  have hfirst : ∀ s, s <:+ a ++ ['\n'] → s ≠ [] → ¬ ['\\', '\r', '\n'] <+: s ++ b := by
    intro s hs hne ⟨r, hr⟩
    obtain ⟨t, rfl, ht⟩ := (List.suffix_concat_iff.1 hs).resolve_left hne
    match t with
    | [] => simp at hr
    | [x] => simp at hr
    | [x, y] =>
      simp only [List.cons_append, List.nil_append, List.cons.injEq] at hr
      obtain ⟨rfl, rfl, -⟩ := hr
      exact hcrlf ht
    | x :: y :: z :: t =>
      simp only [List.cons_append, List.nil_append, List.cons.injEq] at hr
      obtain ⟨-, -, rfl, -⟩ := hr
      exact hn (ht.subset (by simp))
  have hsecond : ∀ s, s <:+ a ++ ['\n'] → s ≠ [] →
      ¬ ['\\', '\n'] <+: s ++ replace ['\\', '\r', '\n'] [] b := by
    intro s hs hne ⟨r, hr⟩
    obtain ⟨t, rfl, ht⟩ := (List.suffix_concat_iff.1 hs).resolve_left hne
    match t with
    | [] => simp at hr
    | [x] =>
      simp only [List.cons_append, List.nil_append, List.cons.injEq] at hr
      obtain ⟨rfl, -⟩ := hr
      exact hlf ht
    | x :: y :: t =>
      simp only [List.cons_append, List.nil_append, List.cons.injEq] at hr
      obtain ⟨-, rfl, -⟩ := hr
      exact hn (ht.subset (by simp))
  have hcut : a ++ '\n' :: b = a ++ ['\n'] ++ b := by simp
  rw [hcut, joinLines, replace_append_of_clear [] hfirst, replace_append_of_clear [] hsecond, joinLines]
  simp

/-- Lines that are not continued are the text's own. -/
theorem joinLines_flatten {pieces : List Text} (h : Buffered.Cut '\n' pieces)
    (hends : ∀ body, body ++ ['\n'] ∈ pieces → ¬ ['\\'] <:+ body ∧ ¬ ['\\', '\r'] <:+ body) :
    joinLines pieces.flatten = pieces.flatten := by
  induction h with
  | nil => rfl
  | last hopen _ => simpa using joinLines_open hopen
  | @line body pieces hbody _ ih =>
    obtain ⟨hlf, hcrlf⟩ := hends body List.mem_cons_self
    rw [List.flatten_cons, List.append_assoc, List.singleton_append, joinLines_piece hbody hlf hcrlf,
      ih fun body' hmem => hends body' (List.mem_cons_of_mem _ hmem)]

/-! ## The whole text -/

/-- What `rewriteLine` makes of a piece of the text. -/
theorem rewriteLine_piece {rewrite : Text → Text} {text piece : Text} (h : piece ∈ splitInclusive text)
    (hline : Rewritable rewrite (chomp piece)) : ∃ body ending,
      rewriteLine rewrite piece = body ++ ending ∧ body = rewriteBody rewrite (chomp piece) ∧
      '\n' ∉ body ∧ body.getLast? ≠ some '\\' ∧ body.getLast? ≠ some '\r' ∧
      (ending = [] ∧ '\n' ∉ piece ∧ body ≠ [] ∨ (ending = ['\n'] ∨ ending = ['\r', '\n']) ∧ '\n' ∈ piece) := by
  obtain ⟨ending, hpiece, hn, hending⟩ := exists_ending h
  have hends : ending = [] ∨ ending = ['\n'] ∨ ending = ['\r', '\n'] := by
    rcases hending with ⟨h, -, -⟩ | h | h
    · exact .inl h
    · exact .inr (.inl h)
    · exact .inr (.inr h)
  obtain ⟨htrim, -, hend⟩ := trimEndOfLine_append hends hn hline.rustc.noCarriageReturn
  rw [← hpiece] at htrim hend
  obtain ⟨hbn, hblast, hbcr, hbne⟩ := (rewriteBody_rewritten hline).oneLine hline.rustc hn
  refine ⟨rewriteBody rewrite (chomp piece), ending, by rw [rewriteLine, htrim, hend], rfl, hbn, hblast, hbcr, ?_⟩
  rcases hending with ⟨rfl, hopen, hne⟩ | rfl | rfl
  · refine .inl ⟨rfl, hopen, hbne ?_⟩
    rw [List.append_nil] at hpiece
    rwa [← hpiece]
  · exact .inr ⟨.inl rfl, by rw [hpiece]; simp⟩
  · exact .inr ⟨.inr rfl, by rw [hpiece]; simp⟩

theorem cut_rewriteLine {rewrite : Text → Text} {text : Text}
    (hlines : ∀ piece ∈ splitInclusive text, Rewritable rewrite (chomp piece)) :
    Buffered.Cut '\n' ((splitInclusive text).map (rewriteLine rewrite)) := by
  have hcut := Buffered.cut_splitInclusive '\n' text
  rw [← splitInclusive_eq] at hcut
  refine hcut.map ?_ ?_
  · intro body hmem _
    obtain ⟨body', ending, hresult, -, hn, -, -, hending⟩ := rewriteLine_piece hmem (hlines _ hmem)
    rcases hending with ⟨-, hopen, -⟩ | ⟨rfl | rfl, -⟩
    · exact absurd hopen (by simp)
    · exact ⟨body', hn, hresult⟩
    · exact ⟨body' ++ ['\r'], by simp [hn], by simpa using hresult⟩
  · intro piece hmem hopen _
    obtain ⟨body', ending, hresult, -, hn, -, -, hending⟩ := rewriteLine_piece hmem (hlines _ hmem)
    rcases hending with ⟨rfl, -, hne⟩ | ⟨-, hstop⟩
    · rw [List.append_nil] at hresult
      rw [hresult]
      exact ⟨hn, hne⟩
    · exact absurd hstop hopen

/-- No rewritten line runs on into the next. -/
theorem rewriteLine_ends {rewrite : Text → Text} {text : Text}
    (hlines : ∀ piece ∈ splitInclusive text, Rewritable rewrite (chomp piece)) :
    ∀ body, body ++ ['\n'] ∈ (splitInclusive text).map (rewriteLine rewrite) →
      ¬ ['\\'] <:+ body ∧ ¬ ['\\', '\r'] <:+ body := by
  intro body hmem
  obtain ⟨piece, hpiece, heq⟩ := List.mem_map.1 hmem
  obtain ⟨body', ending, hresult, -, hn, hlast, hcr, hending⟩ := rewriteLine_piece hpiece (hlines _ hpiece)
  rw [heq] at hresult
  rcases hending with ⟨rfl, -, -⟩ | ⟨rfl | rfl, -⟩
  · rw [List.append_nil] at hresult
    exact absurd (by rw [← hresult]; simp) hn
  · obtain rfl := List.append_cancel_right hresult
    exact ⟨not_suffix_of_getLast (by simp) (Ne.symm hlast), not_suffix_of_getLast (by simp) (Ne.symm hcr)⟩
  · have hbody : body = body' ++ ['\r'] := by
      have hends : body ++ ['\n'] = body' ++ ['\r'] ++ ['\n'] := by simpa using hresult
      exact List.append_cancel_right hends
    subst hbody
    refine ⟨not_suffix_of_getLast (by simp) (by simp), ?_⟩
    intro h
    have hsuffix : ['\\'] <:+ body' := List.suffix_append_self_iff.1 h
    exact not_suffix_of_getLast (by simp) (Ne.symm hlast) hsuffix

/-- The lines that are read back are the rewritten ones. -/
theorem logicalLines_rewriteDepInfo {rewrite : Text → Text} {text : Text}
    (hlines : ∀ line ∈ logicalLines text, Rewritable rewrite line) :
    logicalLines (rewriteDepInfo text rewrite) = (logicalLines text).map (rewriteBody rewrite) := by
  have hpieces : ∀ piece ∈ splitInclusive (joinLines text), Rewritable rewrite (chomp piece) :=
    fun piece hpiece => hlines (chomp piece) (List.mem_map_of_mem hpiece)
  have hcut := cut_rewriteLine hpieces
  have htext : rewriteDepInfo text rewrite = ((splitInclusive (joinLines text)).map (rewriteLine rewrite)).flatten := by
    rw [rewriteDepInfo, List.flatMap_def]
  have hjoin := joinLines_flatten hcut (rewriteLine_ends hpieces)
  rw [htext, logicalLines, ← joinLines, hjoin, lines, splitInclusive_eq, hcut.splitInclusive_flatten]
  show _ = ((splitInclusive (joinLines text)).map chomp).map (rewriteBody rewrite)
  rw [List.map_map, List.map_map]
  refine List.map_congr_left fun piece hpiece => ?_
  obtain ⟨body, ending, hresult, hbody, hn, -, hcr, hending⟩ := rewriteLine_piece hpiece (hpieces piece hpiece)
  have hends : ending = [] ∨ ending = ['\n'] ∨ ending = ['\r', '\n'] := by
    rcases hending with ⟨h, -, -⟩ | ⟨h | h, -⟩
    · exact .inl h
    · exact .inr (.inl h)
    · exact .inr (.inr h)
  simp only [Function.comp_apply, hresult]
  rw [(trimEndOfLine_append hends hn hcr).2.1, hbody]

/-- The files as the map makes them, the environment as it was. -/
def ReadMapped (text : Text) (rewrite : Text → Text) : Prop :=
  parseDepInfo (rewriteDepInfo text rewrite) = ((parseDepInfo text).1.image rewrite, (parseDepInfo text).2)

/-- What is read back from a rewritten text is what was read before, mapped. -/
theorem parseDepInfo_rewriteDepInfo {text : Text} {rewrite : Text → Text}
    (htext : ∀ line ∈ logicalLines text, RustcLine line) (hkeeps : ∀ line ∈ logicalLines text, Keeps rewrite line)
    (hcolon : ∀ line ∈ logicalLines text, KeepsColon rewrite line) : ReadMapped text rewrite := by
  have hall : ∀ line ∈ logicalLines text, Rewritable rewrite line :=
    fun line hline => ⟨htext line hline, hkeeps line hline, hcolon line hline⟩
  have hlines := logicalLines_rewriteDepInfo hall
  have hrewritten : ∀ line ∈ logicalLines text, Rewritten rewrite line (rewriteBody rewrite line) :=
    fun line hline => rewriteBody_rewritten (hall line hline)
  refine Prod.ext ?_ ?_
  · ext file
    rw [mem_parseDepInfo_files, hlines, Finset.mem_image]
    constructor
    · intro ⟨result, hresult, hfile⟩
      obtain ⟨line, hline, rfl⟩ := List.mem_map.1 hresult
      rw [(hrewritten line hline).ruleWords] at hfile
      obtain ⟨word, hword, rfl⟩ := List.mem_map.1 hfile
      exact ⟨word, mem_parseDepInfo_files.2 ⟨line, hline, hword⟩, rfl⟩
    · intro ⟨word, hword, heq⟩
      obtain ⟨line, hline, hmem⟩ := mem_parseDepInfo_files.1 hword
      refine ⟨rewriteBody rewrite line, List.mem_map_of_mem hline, ?_⟩
      rw [(hrewritten line hline).ruleWords, ← heq]
      exact List.mem_map_of_mem hmem
  · ext e
    rw [mem_parseDepInfo_env, mem_parseDepInfo_env, hlines]
    constructor
    · intro ⟨result, hresult, he⟩
      obtain ⟨line, hline, rfl⟩ := List.mem_map.1 hresult
      exact ⟨line, hline, (hrewritten line hline).envOf ▸ he⟩
    · intro ⟨line, hline, he⟩
      exact ⟨rewriteBody rewrite line, List.mem_map_of_mem hline, (hrewritten line hline).envOf.symm ▸ he⟩

/-- Two rules and an environment entry, with a continuation and both endings. -/
def crlfText : Text :=
  "C:\\out\\a.d: src\\lib.rs C:\\my\\ dir\\b.rs \\\r\n \\\\server\\c.rs\r\n\nsrc\\lib.rs:\n# env-dep:MODE=fast\n".toList

/-- A checkout whose path has a space. -/
def intoCheckout (word : Text) : Text := if word = "src\\lib.rs".toList then "D:\\my work\\lib.rs".toList else word

theorem parseDepInfo_rewrite_crlf : parseDepInfo (rewriteDepInfo crlfText intoCheckout) =
    ({"D:\\my work\\lib.rs".toList, "C:\\my dir\\b.rs".toList, "\\\\server\\c.rs".toList},
      {("MODE".toList, some "fast".toList)}) := by
  rw [show parseDepInfo (rewriteDepInfo crlfText intoCheckout) = _ from
    parseDepInfo_rewriteDepInfo (by decide +kernel) (by decide +kernel) (by decide +kernel)]
  decide +kernel

/-- A rule with two targets, each of which gets a colon: the line is cut after
the first. -/
theorem colonTargets_not_readMapped : ¬ ∀ text rewrite, (∀ line ∈ logicalLines text, RustcLine line) →
    (∀ line ∈ logicalLines text, Keeps rewrite line) → ReadMapped text rewrite := by
  intro hall
  have hread := hall "a b: c\n".toList (· ++ [':']) (by decide +kernel) (by decide +kernel)
  have hfiles : (parseDepInfo (rewriteDepInfo "a b: c\n".toList (· ++ [':']))).1 ≠
      (parseDepInfo "a b: c\n".toList).1.image (· ++ [':']) := by decide +kernel
  exact hfiles (congrArg Prod.fst hread)

end Bellows.Core
