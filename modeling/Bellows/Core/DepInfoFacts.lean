/-
What `parse_dep_info` reads of the text rustc writes.

The text's lines are found first: a rule keeps its line, whatever precedes
its colon; a file's own rule and the blank lines say nothing; and an
`# env-dep:` comment takes in the next one when it ends in a backslash, which
is when its value does (`heads` are the entries that keep a line). From the
lines the files and names read follow, and with them exactly when they are
the ones written (`Readable`).
-/
import Mathlib.Data.List.TakeWhile
import Bellows.Core.DepInfo

namespace Bellows.Core

open Text

/-! ## Words -/

theorem splitWordsFrom_nonempty {current text : Text} {w : Text} (h : w ∈ splitWordsFrom current text) :
    w ≠ [] := by
  fun_induction splitWordsFrom current text with
  | case1 => simp at h
  | case2 current hne => rw [List.mem_singleton.1 h]; exact hne
  | case3 current rest ih => exact ih h
  | case4 c rest _ _ ih => exact ih h
  | case5 current c rest _ _ hne ih =>
    rcases List.mem_cons.1 h with rfl | h
    · exact hne
    · exact ih h
  | case6 current c rest _ _ ih => exact ih h

/-- No word has whitespace in it but spaces. -/
theorem splitWordsFrom_spaces {current text : Text} {w : Text} (h : w ∈ splitWordsFrom current text)
    (hcurrent : ∀ c ∈ current, isWhitespace c = true → c = ' ') :
    ∀ c ∈ w, isWhitespace c = true → c = ' ' := by
  fun_induction splitWordsFrom current text with
  | case1 => simp at h
  | case2 current hne => rw [List.mem_singleton.1 h]; exact hcurrent
  | case3 current rest ih =>
    refine ih h fun c hc hw => ?_
    rcases List.mem_append.1 hc with hc | hc
    · exact hcurrent c hc hw
    · exact List.mem_singleton.1 hc
  | case4 c rest _ _ ih => exact ih h (by simp)
  | case5 current c rest _ _ hne ih =>
    rcases List.mem_cons.1 h with rfl | h
    · exact hcurrent
    · exact ih h (by simp)
  | case6 current c rest _ hnot ih =>
    refine ih h fun d hd hw => ?_
    rcases List.mem_append.1 hd with hd | hd
    · exact hcurrent d hd hw
    · rw [List.mem_singleton.1 hd] at hw; exact absurd hw hnot

/-- A character that starts no escape ends the word or joins it. -/
theorem splitWordsFrom_plain {c : Char} {rest : Text} (h : c = '\\' → ∀ r, rest ≠ ' ' :: r)
    (current : Text) : splitWordsFrom current (c :: rest) =
      if isWhitespace c then
        if current = [] then splitWordsFrom [] rest else current :: splitWordsFrom [] rest
      else splitWordsFrom (current ++ [c]) rest := by
  rw [splitWordsFrom.eq_3]
  rintro r rfl rfl
  exact h rfl r rfl

theorem splitWordsFrom_cons {c : Char} (hw : isWhitespace c = false) (current : Text) {rest : Text}
    (h : c = '\\' → ∀ r, rest ≠ ' ' :: r) :
    splitWordsFrom current (c :: rest) = splitWordsFrom (current ++ [c]) rest := by
  rw [splitWordsFrom_plain h, if_neg (by simp [hw])]

theorem isWhitespace_space : isWhitespace ' ' = true := by decide

/-- An escaped name followed by nothing or a space is one word. -/
theorem splitWordsFrom_escape {rest : Text} (hrest : ∀ c r, rest = c :: r → c = ' ') :
    ∀ (name current : Text), (∀ c ∈ name, isWhitespace c = true → c = ' ') → name.getLast? ≠ some '\\' →
      splitWordsFrom current (escapeDepFilename name ++ rest) = splitWordsFrom (current ++ name) rest
  | [], current, _, _ => by simp [escapeDepFilename]
  | c :: name, current, hs, hb => by
    have hs' : ∀ c ∈ name, isWhitespace c = true → c = ' ' := fun d hd => hs d (List.mem_cons_of_mem _ hd)
    have hb' : name.getLast? ≠ some '\\' := by
      cases name with
      | nil => simp
      | cons d name => simpa using hb
    have ih := fun current => splitWordsFrom_escape hrest name current hs' hb'
    by_cases hc : c = ' '
    · subst hc
      simp only [escapeDepFilename, List.flatMap_cons, if_true, List.cons_append, List.nil_append] at ih ⊢
      rw [splitWordsFrom, ih, List.append_assoc]
      rfl
    · have hw : isWhitespace c = false := by
        cases hw : isWhitespace c with
        | false => rfl
        | true => exact absurd (hs c (by simp) hw) hc
      simp only [escapeDepFilename, List.flatMap_cons, if_neg hc, List.cons_append, List.nil_append] at ih ⊢
      rw [splitWordsFrom_cons hw, ih, List.append_assoc]
      · rfl
      · -- A backslash is not the last character, and what follows it is not a bare space.
        rintro rfl r hr
        cases name with
        | nil => exact absurd rfl hb
        | cons d name =>
          simp only [List.flatMap_cons] at hr
          split at hr
          · simp at hr
          · next hd =>
            simp only [List.cons_append, List.cons.injEq] at hr
            exact hd hr.1

/-- A space ends the word, if there is one. -/
theorem splitWordsFrom_space (current rest : Text) : splitWordsFrom current (' ' :: rest) =
    splitWordsFrom current [] ++ splitMakefileWords rest := by
  rw [splitWordsFrom_plain (by simp), if_pos isWhitespace_space, splitWordsFrom]
  split <;> rfl

/-- The words before a colon and a space, and those after. -/
theorem splitWordsFrom_colon (rest : Text) (current text : Text) :
    splitWordsFrom current (text ++ ':' :: ' ' :: rest) =
      splitWordsFrom current (text ++ [':']) ++ splitMakefileWords rest := by
  have hcolon : isWhitespace ':' = false := by decide
  -- What escapes nothing before the end still does not when a colon follows.
  have hopen : ∀ {c : Char} {text : Text}, (∀ r, c = '\\' → text = ' ' :: r → False) →
      ∀ more, c = '\\' → ∀ r, text ++ ':' :: more ≠ ' ' :: r := by
    intro c text h more hc r hr
    cases text with
    | nil => simp at hr
    | cons d text =>
      simp only [List.cons_append, List.cons.injEq] at hr
      exact h text hc (by rw [hr.1])
  fun_induction splitWordsFrom current text with
  | case1 | case2 =>
    simp only [List.nil_append]
    rw [splitWordsFrom_cons hcolon _ (by simp), splitWordsFrom_cons hcolon _ (by simp), splitWordsFrom_space]
  | case3 current text ih =>
    simp only [List.cons_append, splitWordsFrom]
    exact ih
  | case4 c text h hw ih =>
    simp only [List.cons_append]
    rw [splitWordsFrom_plain (hopen h _), splitWordsFrom_plain (hopen h _), if_pos hw, if_pos hw, if_pos rfl,
      if_pos rfl, ih]
  | case5 current c text h hw hne ih =>
    simp only [List.cons_append]
    rw [splitWordsFrom_plain (hopen h _), splitWordsFrom_plain (hopen h _), if_pos hw, if_pos hw, if_neg hne,
      if_neg hne, ih, List.cons_append]
  | case6 current c text h hw ih =>
    simp only [List.cons_append]
    rw [splitWordsFrom_plain (hopen h _), splitWordsFrom_plain (hopen h _), if_neg hw, if_neg hw, ih]

/-- A file name whose whitespace is spaces. -/
def DepFile.Spaced (file : DepFile) : Prop := ∀ c ∈ file.name, isWhitespace c = true → c = ' '

/-- The dependencies of a rule are read back, unless whitespace other than a
space breaks one. -/
theorem splitMakefileWords_joined {files : List DepFile} (h : ∀ f ∈ files, f.Spaced) :
    splitMakefileWords (joinedFiles files) = files.map (·.name) := by
  have hword : ∀ f ∈ files, ∀ rest : Text, (∀ c r, rest = c :: r → c = ' ') →
      splitMakefileWords (escapeDepFilename f.name ++ rest) = splitWordsFrom f.name rest := by
    intro f hf rest hrest
    rw [splitMakefileWords, splitWordsFrom_escape hrest f.name [] (h f hf) f.noTrailingBackslash]
    rfl
  induction files with
  | nil => rfl
  | cons f files ih =>
    have ih := ih (fun g hg => h g (List.mem_cons_of_mem _ hg)) fun g hg => hword g (List.mem_cons_of_mem _ hg)
    have hf := hword f List.mem_cons_self
    cases files with
    | nil =>
      have := hf [] (by simp)
      simp only [List.append_nil, splitWordsFrom, if_neg f.nonempty] at this
      simpa [joinedFiles, List.intercalate] using this
    | cons g files =>
      have hjoin : joinedFiles (f :: g :: files) = escapeDepFilename f.name ++ ' ' :: joinedFiles (g :: files) := by
        simp [joinedFiles, List.intercalate]
      rw [hjoin, hf _ (by rintro c r ⟨⟩; rfl), splitWordsFrom_space, ih, splitWordsFrom, if_neg f.nonempty]
      rfl

/-! ## Logical lines -/

/-- Continuation lines joined. -/
def joinLines (text : Text) : Text := replace ['\\', '\n'] [] (replace ['\\', '\r', '\n'] [] text)

theorem joinLines_colon (a b : Text) : joinLines (a ++ ':' :: b) = joinLines a ++ ':' :: joinLines b := by
  rw [joinLines, replace_append_cons (by simp) (by decide), replace_append_cons (by simp) (by decide)]
  rfl

/-- A two-character start of a pattern, where it is not in the text. -/
theorem not_prefix_of_second {pat s b : Text} {x y : Char} (hpat : [x, y] <+: pat) (hy : y ∉ s)
    (hlast : ∀ r, s = [x] → b ≠ y :: r) (hne : s ≠ []) : ¬ pat <+: s ++ b := by
  rintro h
  obtain ⟨r, hr⟩ := hpat.trans h
  match s, hne with
  | [c], _ =>
    simp only [List.cons_append, List.nil_append, List.cons.injEq] at hr
    exact hlast r (by rw [hr.1]) hr.2.symm
  | c :: d :: s, _ =>
    simp only [List.cons_append, List.cons.injEq] at hr
    exact hy (by simp [hr.2.1])

/-- A whole line, continued or not, has no "\\\r\n" in it. -/
theorem replace_crlf {a : Text} (hr : '\r' ∉ a) (b : Text) :
    replace ['\\', '\r', '\n'] [] (a ++ '\n' :: b) =
      a ++ '\n' :: replace ['\\', '\r', '\n'] [] b := by
  have hclear : ∀ s, s <:+ a ++ ['\n'] → s ≠ [] → ¬ ['\\', '\r', '\n'] <+: s ++ b := by
    intro s hs hne
    refine not_prefix_of_second (x := '\\') (y := '\r') ⟨['\n'], rfl⟩ (fun h => ?_) (fun r he => ?_) hne
    · have := hs.subset h
      simp [hr] at this
    · subst he
      obtain ⟨p, hp⟩ := hs
      exact absurd (congrArg List.getLast? hp) (by simp)
  have := replace_append_of_clear [] hclear
  simpa using this

theorem joinLines_line {a : Text} (hn : '\n' ∉ a) (hr : '\r' ∉ a) (hb : a.getLast? ≠ some '\\') (b : Text) :
    joinLines (a ++ '\n' :: b) = a ++ '\n' :: joinLines b := by
  rw [joinLines, replace_crlf hr]
  have hclear : ∀ s, s <:+ a → s ≠ [] →
      ¬ ['\\', '\n'] <+: s ++ '\n' :: replace ['\\', '\r', '\n'] [] b := by
    intro s hs hne
    refine not_prefix_of_second (x := '\\') (y := '\n') (List.prefix_refl _) (fun h => hn (hs.subset h))
      (fun r he => absurd ?_ hb) hne
    subst he
    obtain ⟨p, rfl⟩ := hs
    simp
  rw [replace_append_of_clear _ hclear]
  simp [replace, replaceFrom, joinLines]

/-- A line that ends in a backslash runs on into the next. -/
theorem joinLines_continued {a : Text} (hn : '\n' ∉ a) (hr : '\r' ∉ a) (b : Text) :
    joinLines (a ++ '\\' :: '\n' :: b) = a ++ joinLines b := by
  have hcrlf := replace_crlf (a := a ++ ['\\']) (by simp [hr]) b
  simp only [List.append_assoc, List.singleton_append] at hcrlf
  rw [joinLines, hcrlf]
  have hclear : ∀ s, s <:+ a → s ≠ [] →
      ¬ ['\\', '\n'] <+: s ++ ('\\' :: '\n' :: replace ['\\', '\r', '\n'] [] b) := fun s hs hne =>
    not_prefix_of_second (x := '\\') (y := '\n') (List.prefix_refl _) (fun h => hn (hs.subset h)) (by simp) hne
  have hne : ['\\', '\n'] ≠ ([] : Text) := by simp
  have hcut := replace_self_append [] (replace ['\\', '\r', '\n'] [] b) hne
  rw [replace_append_of_clear _ hclear]
  simp only [List.cons_append, List.nil_append] at hcut
  rw [hcut]
  rfl

/-- A last line without a terminator. -/
theorem joinLines_open {a : Text} (hn : '\n' ∉ a) : joinLines a = a := by
  have hnot : ∀ {pat : Text}, '\n' ∈ pat → ∀ s, s <:+ a → s ≠ [] → ¬ pat <+: s ++ [] := by
    intro pat hpat s hs _ h
    rw [List.append_nil] at h
    exact hn (hs.subset (h.subset hpat))
  have hid : ∀ {pat : Text}, '\n' ∈ pat → replace pat [] a = a := fun hpat => by
    have := replace_append_of_clear [] (hnot hpat)
    simpa using this
  rw [joinLines, hid (by simp), hid (by simp)]

theorem logicalLines_line {a : Text} (hn : '\n' ∉ a) (hr : '\r' ∉ a) (hb : a.getLast? ≠ some '\\') (b : Text) :
    logicalLines (a ++ '\n' :: b) = a :: logicalLines b := by
  rw [logicalLines, ← joinLines, joinLines_line hn hr hb, lines_cons hn hr]
  rfl

theorem logicalLines_blank (b : Text) : logicalLines ('\n' :: b) = [] :: logicalLines b :=
  logicalLines_line (a := []) (by simp) (by simp) (by simp) b

/-- What an output's text before a colon puts on the colon's line does not
depend on what follows. -/
theorem logicalLines_output (output : Text) : ∃ done last, ∀ b : Text, '\n' ∉ b → '\r' ∉ b →
    b.getLast? ≠ some '\\' →
    logicalLines (output ++ ':' :: b) = done ++ [last ++ ':' :: b] ∧
      ∀ more, logicalLines (output ++ ':' :: b ++ '\n' :: more) =
        done ++ (last ++ ':' :: b) :: logicalLines more := by
  obtain ⟨done, last, h⟩ := lines_last (c := ':') (by decide) (joinLines output)
  refine ⟨done, last, fun b hn hr hb => ?_⟩
  have hend : (':' :: b).getLast? ≠ some '\r' := fun he => by
    have := List.mem_of_getLast? he
    simp [hr] at this
  obtain ⟨hopen, hterm⟩ := h b hn hend
  refine ⟨?_, fun more => ?_⟩
  · rw [logicalLines, ← joinLines, joinLines_colon, joinLines_open hn, hopen]
  · rw [logicalLines, ← joinLines, List.append_assoc, List.cons_append, joinLines_colon,
      joinLines_line hn hr hb, ← List.cons_append, ← List.append_assoc, lines_append, hterm, List.append_assoc]
    rfl

/-! ## The lines of rustc's text -/

theorem escapeDepFilename_notMem {name : Text} {c : Char} (hs : c ≠ '\\') (h : c ∉ name) :
    c ∉ escapeDepFilename name ∨ c = ' ' := by
  by_cases hc : c = ' '
  · exact .inr hc
  · refine .inl fun hmem => ?_
    simp only [escapeDepFilename, List.mem_flatMap] at hmem
    obtain ⟨d, hd, hcd⟩ := hmem
    split at hcd
    · simp only [List.mem_cons, List.not_mem_nil, or_false] at hcd
      exact hcd.elim hs hc
    · rw [List.mem_singleton] at hcd
      exact h (hcd ▸ hd)

theorem escapeDepFilename_oneLine (f : DepFile) :
    '\n' ∉ escapeDepFilename f.name ∧ '\r' ∉ escapeDepFilename f.name :=
  ⟨(escapeDepFilename_notMem (by decide) f.oneLine.1).resolve_right (by decide),
    (escapeDepFilename_notMem (by decide) f.oneLine.2).resolve_right (by decide)⟩

theorem escapeDepFilename_getLast {name : Text} (hb : name.getLast? ≠ some '\\') :
    (escapeDepFilename name).getLast? ≠ some '\\' := by
  induction name using List.reverseRecOn with
  | nil => simp [escapeDepFilename]
  | append_singleton name c _ =>
    simp only [List.getLast?_append, List.getLast?_singleton, Option.some_or, ne_eq, Option.some.injEq] at hb
    simp only [escapeDepFilename, List.flatMap_append, List.flatMap_singleton, List.getLast?_append]
    split <;> simp [hb]

theorem joinedFiles_line (files : List DepFile) : '\n' ∉ ' ' :: joinedFiles files ∧
    '\r' ∉ ' ' :: joinedFiles files ∧ (' ' :: joinedFiles files).getLast? ≠ some '\\' := by
  induction files with
  | nil => simp [joinedFiles]
  | cons f files ih =>
    obtain ⟨hn, hr⟩ := escapeDepFilename_oneLine f
    have hlast := escapeDepFilename_getLast f.noTrailingBackslash
    cases files with
    | nil =>
      have hjoin : joinedFiles [f] = escapeDepFilename f.name := by simp [joinedFiles, List.intercalate]
      rw [hjoin]
      refine ⟨by simp [hn], by simp [hr], ?_⟩
      rw [List.getLast?_cons]
      cases he : (escapeDepFilename f.name).getLast? with
      | none => simp
      | some c => rw [he] at hlast; simpa using hlast
    | cons g files =>
      have hjoin : joinedFiles (f :: g :: files) = escapeDepFilename f.name ++ ' ' :: joinedFiles (g :: files) := by
        simp [joinedFiles, List.intercalate]
      rw [hjoin]
      obtain ⟨h1, h2, h3⟩ := ih
      simp only [List.mem_cons, not_or] at h1 h2
      refine ⟨by simp [hn, h1.2], by simp [hr, h2.2], ?_⟩
      rw [← List.cons_append, List.getLast?_append]
      cases he : (' ' :: joinedFiles (g :: files)).getLast? with
      | none => simp at he
      | some c => rw [he] at h3; simpa using h3

/-- A rule: the lines its output brings, the rule's own, and a blank one. -/
theorem logicalLines_rule (output : Text) : ∃ done last, logicalLines (output ++ [':']) = done ++ [last ++ [':']] ∧
    ∀ files, logicalLines (output ++ ':' :: ' ' :: joinedFiles files) =
        done ++ [last ++ ':' :: ' ' :: joinedFiles files] ∧
      ∀ more, logicalLines (ruleText files output ++ more) =
        done ++ (last ++ ':' :: ' ' :: joinedFiles files) :: [] :: logicalLines more := by
  obtain ⟨done, last, h⟩ := logicalLines_output output
  refine ⟨done, last, (h [] (by simp) (by simp) (by simp)).1, fun files => ?_⟩
  obtain ⟨hn, hr, hb⟩ := joinedFiles_line files
  obtain ⟨h1, h2⟩ := h _ hn hr hb
  refine ⟨h1, fun more => ?_⟩
  have htext : ruleText files output ++ more = output ++ ':' :: ' ' :: joinedFiles files ++ '\n' :: '\n' :: more := by
    simp [ruleText]
  rw [htext, h2, logicalLines_blank]

/-- A file's own rule. -/
theorem logicalLines_file (f : DepFile) (more : Text) :
    logicalLines (fileText f ++ more) = (escapeDepFilename f.name ++ [':']) :: logicalLines more := by
  obtain ⟨hn, hr⟩ := escapeDepFilename_oneLine f
  have htext : fileText f ++ more = escapeDepFilename f.name ++ [':'] ++ '\n' :: more := by simp [fileText]
  rw [htext, logicalLines_line (by simp [hn]) (by simp [hr]) (by simp)]

/-! ## What a line says -/

/-- The files a line names. -/
def ruleWords (line : Text) : List Text :=
  if envDepPrefix <+: line then []
  else match splitOnce [':', ' '] line with
    | none => []
    | some (_, dependencies) => splitMakefileWords dependencies

/-- The environment entry in a line. -/
def envOf (line : Text) : Option (Text × Option Text) := (stripPrefix? envDepPrefix line).map envEntry

/-- The environment variable a line names. -/
def envName? (line : Text) : Option Text := (stripPrefix? envDepPrefix line).map fun rest => (envEntry rest).1

theorem envName?_eq (line : Text) : envName? line = (envOf line).map Prod.fst := by
  rw [envName?, envOf, Option.map_map]
  rfl

theorem mem_foldl_insert {words : List Text} (hne : ∀ w ∈ words, w ≠ []) (files : Finset Text) (f : Text) :
    f ∈ words.foldl (fun files word => if word = [] then files else insert word files) files ↔
      f ∈ files ∨ f ∈ words := by
  induction words generalizing files with
  | nil => simp
  | cons w words ih =>
    rw [List.foldl_cons, ih fun v hv => hne v (List.mem_cons_of_mem _ hv), if_neg (hne w List.mem_cons_self),
      Finset.mem_insert, List.mem_cons]
    tauto

theorem readLine_files (acc : Finset Text × Finset (Text × Option Text)) (line f : Text) :
    f ∈ (readLine acc line).1 ↔ f ∈ acc.1 ∨ f ∈ ruleWords line := by
  simp only [readLine, ruleWords]
  by_cases h : envDepPrefix <+: line
  · obtain ⟨rest, rfl⟩ := h
    simp
  · rw [stripPrefix?_eq_none.2 h, if_neg h]
    cases splitOnce [':', ' '] line with
    | none => simp
    | some parts => exact mem_foldl_insert (fun w hw => splitWordsFrom_nonempty hw) acc.1 f

theorem readLine_env (acc : Finset Text × Finset (Text × Option Text)) (line : Text) (e : Text × Option Text) :
    e ∈ (readLine acc line).2 ↔ e ∈ acc.2 ∨ envOf line = some e := by
  simp only [readLine, envOf]
  by_cases h : envDepPrefix <+: line
  · obtain ⟨rest, rfl⟩ := h
    simp only [stripPrefix?_append, Finset.mem_insert, Option.map_some, Option.some.injEq]
    rw [or_comm, eq_comm]
  · rw [stripPrefix?_eq_none.2 h]
    cases splitOnce [':', ' '] line <;> simp

/-- What one line adds, the lines add. -/
theorem foldl_readLine_iff {P : Finset Text × Finset (Text × Option Text) → Prop} {Q : Text → Prop}
    (hline : ∀ acc line, P (readLine acc line) ↔ P acc ∨ Q line) :
    ∀ (lines : List Text) acc, P (lines.foldl readLine acc) ↔ P acc ∨ ∃ line ∈ lines, Q line := by
  intro lines
  induction lines with
  | nil => simp
  | cons line lines ih =>
    intro acc
    rw [List.foldl_cons, ih, hline]
    simp only [List.mem_cons, exists_eq_or_imp, or_assoc]

theorem mem_parseDepInfo_files {text f : Text} :
    f ∈ (parseDepInfo text).1 ↔ ∃ line ∈ logicalLines text, f ∈ ruleWords line := by
  refine (foldl_readLine_iff (P := fun acc => f ∈ acc.1) (fun acc line => readLine_files acc line f) _ _).trans ?_
  simp

theorem mem_parseDepInfo_env {text : Text} {e : Text × Option Text} :
    e ∈ (parseDepInfo text).2 ↔ ∃ line ∈ logicalLines text, envOf line = some e := by
  refine (foldl_readLine_iff (P := fun acc => e ∈ acc.2) (fun acc line => readLine_env acc line e) _ _).trans ?_
  simp

theorem mem_parseDepInfo_names {text n : Text} :
    n ∈ (parseDepInfo text).2.image Prod.fst ↔ ∃ line ∈ logicalLines text, envName? line = some n := by
  simp only [Finset.mem_image, mem_parseDepInfo_env, envName?_eq, Option.map_eq_some_iff]
  constructor
  · intro hentry
    obtain ⟨e, ⟨line, hline, he⟩, hname⟩ := hentry
    exact ⟨line, hline, e, he, hname⟩
  · intro hentry
    obtain ⟨line, hline, e, he, hname⟩ := hentry
    exact ⟨e, ⟨line, hline, he⟩, hname⟩

/-- Whether a rule's line reads as a comment is settled by its colon. -/
theorem envDepPrefix_rule (last rest : Text) :
    envDepPrefix <+: last ++ ':' :: rest ↔ envDepPrefix <+: last ++ [':'] := by
  have hpre : envDepPrefix = "# env-dep".toList ++ [':'] := by decide
  have hcolon : ':' ∉ "# env-dep".toList := by decide
  refine ⟨fun ⟨r, hr⟩ => ?_, fun h => h.trans ⟨rest, by simp⟩⟩
  rw [hpre, List.append_assoc] at hr
  rw [hpre]
  rcases List.append_eq_append_iff.1 hr with ⟨a, ha, he⟩ | ⟨a, ha, he⟩
  · cases a with
    | nil => exact ⟨[], by simp [ha]⟩
    | cons c a =>
      simp only [List.cons_append, List.cons.injEq] at he
      exact ⟨a ++ [':'], by simp [ha, ← he.1]⟩
  · cases a with
    | nil => exact ⟨[], by simp [ha]⟩
    | cons c a =>
      simp only [List.cons_append, List.cons.injEq] at he
      exact absurd (by rw [ha, ← he.1]; simp) hcolon

/-- A rule's files: those its output's own text seems to name, and unless
the line reads as a comment, the rule's. -/
theorem ruleWords_rule (last joined : Text) : ruleWords (last ++ ':' :: ' ' :: joined) =
    ruleWords (last ++ [':']) ++ if envDepPrefix <+: last ++ [':'] then [] else splitMakefileWords joined := by
  simp only [ruleWords, envDepPrefix_rule]
  split
  · rfl
  cases h : splitOnce [':', ' '] last with
  | some parts =>
    obtain ⟨target, dependencies⟩ := parts
    rw [splitOnce_append (by simp) _ h, splitOnce_append (by simp) _ h]
    exact splitWordsFrom_colon joined [] dependencies
  | none =>
    have hno : ¬ [':', ' '] <:+: last := (splitOnce_eq_none (by simp)).1 h
    have hclear : ∀ s, s <:+ last → s ≠ [] → ¬ [':', ' '] <+: s ++ [':', ' '] ++ joined := by
      intro s hs hne hp
      match s, hne with
      | [c], _ =>
        obtain ⟨r, hr⟩ := hp
        simp at hr
      | c :: d :: s, _ =>
        have hp' : [':', ' '] <+: c :: d :: s := List.prefix_of_prefix_length_le hp
          ⟨[':', ' '] ++ joined, by simp⟩ (by simp)
        exact hno (hp'.isInfix.trans hs.isInfix)
    have hcut := splitOnce_of_clear (by simp) hclear
    have hnone : splitOnce [':', ' '] (last ++ [':']) = none := by
      rw [splitOnce_eq_none (by simp), List.infix_concat_iff]
      rintro (⟨r, hr⟩ | hin)
      · have := congrArg List.getLast? hr
        simp at this
      · exact hno hin
    simp only [List.append_assoc, List.cons_append, List.nil_append] at hcut
    rw [hcut, hnone]
    rfl

theorem ruleWords_nil : ruleWords [] = [] := by decide

theorem envName?_nil : envName? [] = none := by decide

/-- No escaped name starts with a space. -/
theorem escapeDepFilename_head (name r : Text) : escapeDepFilename name ++ [':'] ≠ ' ' :: r := by
  intro h
  cases name with
  | nil => simp [escapeDepFilename] at h
  | cons c name =>
    simp only [escapeDepFilename, List.flatMap_cons] at h
    split at h
    · simp at h
    · next hc => exact hc (by simpa using (List.cons.inj h).1)

/-- A file's own rule says nothing. -/
theorem fileLine (f : DepFile) : ruleWords (escapeDepFilename f.name ++ [':']) = [] ∧
    envName? (escapeDepFilename f.name ++ [':']) = none := by
  have hcomment : ¬ envDepPrefix <+: escapeDepFilename f.name ++ [':'] := by
    rintro ⟨r, hr⟩
    have hpre : envDepPrefix = '#' :: ' ' :: "env-dep:".toList := by decide
    rw [hpre] at hr
    cases hf : f.name with
    | nil => exact f.nonempty hf
    | cons c name =>
      simp only [hf, escapeDepFilename, List.flatMap_cons, List.cons_append] at hr
      split at hr
      · simp at hr
      · exact escapeDepFilename_head name _ (List.cons.inj hr).2.symm
  have hcolon : ∀ name : Text, splitOnce [':', ' '] (escapeDepFilename name ++ [':']) = none := by
    intro name
    induction name with
    | nil => decide
    | cons c name ih =>
      have hstart : ∀ d, ¬ [':', ' '] <+: d :: (escapeDepFilename name ++ [':']) := by
        rintro d ⟨r, hr⟩
        exact escapeDepFilename_head name r (List.cons.inj hr).2.symm
      have hcons : escapeDepFilename (c :: name) = (if c = ' ' then ['\\', ' '] else [c]) ++ escapeDepFilename name := rfl
      rw [hcons]
      split
      · have hspace : ¬ [':', ' '] <+: '\\' :: ' ' :: (escapeDepFilename name ++ [':']) := by simp
        simp only [List.cons_append, List.nil_append, splitOnce, if_neg hspace, if_neg (hstart ' '), ih,
          Option.map_none]
      · simp only [List.cons_append, List.nil_append, splitOnce, if_neg (hstart c), ih, Option.map_none]
  refine ⟨by rw [ruleWords, if_neg hcomment, hcolon], ?_⟩
  rw [envName?, stripPrefix?_eq_none.2 hcomment]
  rfl

/-! ## The comments -/

theorem escapeDepEnv_oneLine (value : Text) : '\n' ∉ escapeDepEnv value ∧ '\r' ∉ escapeDepEnv value := by
  have h : ∀ c ∈ escapeDepEnv value, c ≠ '\n' ∧ c ≠ '\r' := by
    intro c hc
    simp only [escapeDepEnv, List.mem_flatMap] at hc
    obtain ⟨d, -, hc⟩ := hc
    split at hc <;> simp only [List.mem_cons, List.not_mem_nil, or_false] at hc
    · rcases hc with rfl | rfl <;> decide
    · rcases hc with rfl | rfl <;> decide
    · rcases hc with rfl | rfl <;> decide
    · next hn hr _ => exact ⟨fun he => hn (hc.symm.trans he), fun he => hr (hc.symm.trans he)⟩
  exact ⟨fun hn => (h _ hn).1 rfl, fun hr => (h _ hr).2 rfl⟩

theorem entryText_oneLine (env : EnvDep) : '\n' ∉ entryText env ∧ '\r' ∉ entryText env := by
  have ⟨hn, hr⟩ := escapeDepEnv_oneLine env.name
  simp only [entryText]
  cases env.value with
  | none => simp [hn, hr]
  | some value =>
    have ⟨hvn, hvr⟩ := escapeDepEnv_oneLine value
    simp [hn, hr, hvn, hvr]

/-- The comment ends in a backslash, and so runs on into the next line. -/
def EnvDep.RunsOn (env : EnvDep) : Prop := (entryText env).getLast? = some '\\'

instance (env : EnvDep) : Decidable env.RunsOn := inferInstanceAs (Decidable (_ = _))

/-- A comment's text in front of the lines it runs on into. -/
def runInto (text : Text) : List Text → List Text
  | [] => [text]
  | next :: rest => (text ++ envDepPrefix ++ next) :: rest

/-- The lines of the comments, without the prefix: a comment that runs on has
the next one in its line. -/
def commentTexts : List EnvDep → List Text
  | [] => []
  | env :: envs =>
    if env.RunsOn then runInto (entryText env).dropLast (commentTexts envs)
    else entryText env :: commentTexts envs

theorem runInto_runInto (a b : Text) (texts : List Text) :
    runInto a (runInto b texts) = runInto (a ++ envDepPrefix ++ b) texts := by
  cases texts <;> simp [runInto]

theorem envDepPrefix_line : '\n' ∉ envDepPrefix ∧ '\r' ∉ envDepPrefix ∧ envDepPrefix.getLast? = some ':' := by
  decide

/-- A comment that does not run on has its line. -/
theorem joinLines_env {env : EnvDep} (h : ¬ env.RunsOn) (more : Text) :
    joinLines (envText env ++ more) = envDepPrefix ++ entryText env ++ '\n' :: joinLines more := by
  obtain ⟨hn, hr⟩ := entryText_oneLine env
  obtain ⟨hpn, hpr, hlast⟩ := envDepPrefix_line
  have hb : (envDepPrefix ++ entryText env).getLast? ≠ some '\\' := by
    rw [List.getLast?_append, hlast]
    cases he : (entryText env).getLast? with
    | none => simp
    | some c => rw [EnvDep.RunsOn, he] at h; simpa using h
  have hline := joinLines_line (a := envDepPrefix ++ entryText env) (by simp [hpn, hn]) (by simp [hpr, hr]) hb more
  rw [← hline]
  simp [envText]

theorem joinLines_runsOn {env : EnvDep} (h : env.RunsOn) (more : Text) :
    joinLines (envText env ++ more) = envDepPrefix ++ (entryText env).dropLast ++ joinLines more := by
  obtain ⟨hn, hr⟩ := entryText_oneLine env
  obtain ⟨hpn, hpr, -⟩ := envDepPrefix_line
  obtain ⟨w, hw⟩ := List.getLast?_eq_some_iff.1 h
  rw [hw] at hn hr
  simp only [List.mem_append, not_or] at hn hr
  have hline := joinLines_continued (a := envDepPrefix ++ w) (by simp [hpn, hn.1]) (by simp [hpr, hr.1]) more
  rw [hw, List.dropLast_concat, ← hline]
  simp [envText, hw]

/-- The comments' lines: on lines of their own, and after a comment that runs
on into them. -/
theorem lines_comments : ∀ envs : List EnvDep,
    lines (joinLines (envs.flatMap envText)) = (commentTexts envs).map (envDepPrefix ++ ·) ∧
    ∀ text : Text, '\n' ∉ text → '\r' ∉ text → lines (envDepPrefix ++ text ++ joinLines (envs.flatMap envText)) =
      (runInto text (commentTexts envs)).map (envDepPrefix ++ ·)
  | [] => by
    have hnil : joinLines ([] : Text) = [] := rfl
    refine ⟨rfl, fun text hn hr => ?_⟩
    have hline : '\n' ∉ envDepPrefix ++ text := by simp [envDepPrefix_line.1, hn]
    have hne : envDepPrefix ++ text ≠ [] := List.append_ne_nil_of_left_ne_nil (by decide) text
    rw [List.flatMap_nil, hnil, List.append_nil, lines_single hne hline]
    rfl
  | env :: envs => by
    obtain ⟨hown, hinto⟩ := lines_comments envs
    obtain ⟨hen, her⟩ := entryText_oneLine env
    obtain ⟨hpn, hpr, -⟩ := envDepPrefix_line
    rw [List.flatMap_cons, commentTexts]
    by_cases h : env.RunsOn
    · have hdn : '\n' ∉ (entryText env).dropLast := fun hc => hen (List.mem_of_mem_dropLast hc)
      have hdr : '\r' ∉ (entryText env).dropLast := fun hc => her (List.mem_of_mem_dropLast hc)
      rw [joinLines_runsOn h, if_pos h]
      refine ⟨hinto _ hdn hdr, fun text hn hr => ?_⟩
      rw [runInto_runInto, ← hinto _ (by simp [hn, hpn, hdn]) (by simp [hr, hpr, hdr])]
      simp
    · rw [joinLines_env h, if_neg h]
      refine ⟨?_, fun text hn hr => ?_⟩
      · rw [lines_cons (by simp [hpn, hen]) (by simp [hpr, her]), hown]
        rfl
      · have hline : envDepPrefix ++ text ++ (envDepPrefix ++ entryText env ++ '\n' :: joinLines (envs.flatMap envText)) =
            envDepPrefix ++ (text ++ envDepPrefix ++ entryText env) ++ '\n' :: joinLines (envs.flatMap envText) := by
          simp only [List.append_assoc]
        rw [hline, lines_cons (by simp [hn, hpn, hen]) (by simp [hr, hpr, her]), hown]
        rfl

/-- What stands before the first equals sign. -/
def beforeEquals (text : Text) : Text := text.takeWhile (· ≠ '=')

theorem envEntry_fst (rest : Text) : (envEntry rest).1 = beforeEquals rest := by
  have hcut : splitOnce ['='] rest = if '=' ∈ rest then
      some (rest.takeWhile (· ≠ '='), (rest.dropWhile (· ≠ '=')).tail) else none := by
    induction rest with
    | nil => rfl
    | cons c rest ih =>
      by_cases hc : c = '='
      · subst hc
        simp [splitOnce]
      · have hpre : ¬ ['='] <+: c :: rest := by
          rintro ⟨r, hr⟩
          exact hc (List.cons.inj hr).1.symm
        simp only [splitOnce, if_neg hpre, ih, List.mem_cons, Ne.symm hc, false_or]
        split <;> simp [hc]
  rw [envEntry, hcut]
  by_cases h : '=' ∈ rest
  · simp [h, beforeEquals]
  · rw [if_neg h, beforeEquals, List.takeWhile_eq_self_iff.2]
    intro c hc
    have hne : c ≠ '=' := fun he => h (he ▸ hc)
    simpa using hne

theorem envName?_comment (text : Text) : envName? (envDepPrefix ++ text) = some (beforeEquals text) := by
  rw [envName?, stripPrefix?_append, Option.map_some, envEntry_fst]

/-! ## The whole text -/

theorem ruleWords_of_names {line n : Text} (h : envName? line = some n) : ruleWords line = [] := by
  rw [ruleWords, if_pos]
  by_contra hno
  rw [envName?, stripPrefix?_eq_none.2 hno] at h
  cases h

/-- What follows the rules: the files' own rules and the comments. -/
def tailText (files : List DepFile) (envs : List EnvDep) : Text :=
  files.flatMap fileText ++ if envs = [] then [] else '\n' :: envs.flatMap envText

theorem logicalLines_tail (files : List DepFile) (envs : List EnvDep) :
    (∀ line ∈ logicalLines (tailText files envs), ruleWords line = []) ∧
      ∀ n, (∃ line ∈ logicalLines (tailText files envs), envName? line = some n) ↔
        ∃ text ∈ commentTexts envs, beforeEquals text = n := by
  induction files with
  | cons f files ih =>
    have htail : tailText (f :: files) envs = fileText f ++ tailText files envs := by simp [tailText]
    obtain ⟨hw, hn⟩ := fileLine f
    rw [htail, logicalLines_file]
    refine ⟨fun line hline => ?_, fun n => ?_⟩
    · rcases List.mem_cons.1 hline with rfl | hline
      · exact hw
      · exact ih.1 line hline
    · simp only [List.mem_cons, exists_eq_or_imp, hn, reduceCtorEq, false_or]
      exact ih.2 n
  | nil =>
    by_cases he : envs = []
    · subst he
      have hnil : logicalLines (tailText [] []) = [] := by decide
      simp [hnil, commentTexts]
    · have htail : tailText [] envs = '\n' :: envs.flatMap envText := by simp [tailText, he]
      rw [htail, logicalLines_blank, logicalLines, ← joinLines, (lines_comments envs).1]
      simp only [List.mem_cons, List.mem_map]
      refine ⟨?_, fun n => ?_⟩
      · rintro line (rfl | ⟨text, -, rfl⟩)
        · exact ruleWords_nil
        · exact ruleWords_of_names (envName?_comment text)
      · simp only [exists_eq_or_imp, envName?_nil, reduceCtorEq, false_or, exists_exists_and_eq_and,
          envName?_comment, Option.some.injEq]

/-- The lines of the whole text: each output's, with its rule and a blank
one, then the tail's. -/
theorem mem_logicalLines_text (outputs : List Text) (files : List DepFile) (envs : List EnvDep) (line : Text) :
    line ∈ logicalLines (depInfoText outputs files envs) ↔
      (∃ output ∈ outputs, line ∈ logicalLines (output ++ ':' :: ' ' :: joinedFiles files) ∨ line = []) ∨
        line ∈ logicalLines (tailText files envs) := by
  have htext : depInfoText outputs files envs = outputs.flatMap (ruleText files) ++ tailText files envs := by
    simp [depInfoText, tailText]
  rw [htext]
  clear htext
  induction outputs with
  | nil => simp
  | cons output outputs ih =>
    obtain ⟨done, last, -, h⟩ := logicalLines_rule output
    obtain ⟨hopen, hmore⟩ := h files
    rw [List.flatMap_cons, List.append_assoc, hmore]
    simp only [List.mem_append, List.mem_cons, hopen, ih, exists_eq_or_imp]
    simp only [List.not_mem_nil, or_false, or_assoc]

/-- The files an output's own text seems to name, up to its rule's colon. -/
def strayWords (output : Text) : List Text := (logicalLines (output ++ [':'])).flatMap ruleWords

/-- An output's rule reads as a comment. -/
def Commented (output : Text) : Prop :=
  ∃ line, (logicalLines (output ++ [':'])).getLast? = some line ∧ envDepPrefix <+: line

/-- The environment variables an output's text, and its rule if it reads as a
comment, seem to name. -/
def strayNames (files : List DepFile) (output : Text) : List Text :=
  (logicalLines (output ++ ':' :: ' ' :: joinedFiles files)).filterMap envName?

theorem mem_files_rule (files : List DepFile) (output f : Text) :
    (∃ line ∈ logicalLines (output ++ ':' :: ' ' :: joinedFiles files), f ∈ ruleWords line) ↔
      f ∈ strayWords output ∨ ¬ Commented output ∧ f ∈ splitMakefileWords (joinedFiles files) := by
  obtain ⟨done, last, hstray, h⟩ := logicalLines_rule output
  have hcomment : Commented output ↔ envDepPrefix <+: last ++ [':'] := by
    simp [Commented, hstray]
  have hwords : f ∈ strayWords output ↔ (∃ line ∈ done, f ∈ ruleWords line) ∨ f ∈ ruleWords (last ++ [':']) := by
    simp only [strayWords, hstray, List.mem_flatMap, List.mem_append, List.mem_singleton, or_and_right,
      exists_or, exists_eq_left]
  rw [(h files).1, hcomment, hwords]
  simp only [List.mem_append, List.mem_singleton, or_and_right, exists_or, exists_eq_left, ruleWords_rule]
  split <;> simp [*, or_assoc]

/-- The files read: what the outputs' own text seems to name, and the files of
each rule that does not read as a comment. -/
theorem mem_files_text {outputs : List Text} {files : List DepFile} {envs : List EnvDep} {f : Text} :
    f ∈ (parseDepInfo (depInfoText outputs files envs)).1 ↔ ∃ output ∈ outputs,
      f ∈ strayWords output ∨ ¬ Commented output ∧ f ∈ splitMakefileWords (joinedFiles files) := by
  have htail := (logicalLines_tail files envs).1
  rw [mem_parseDepInfo_files]
  simp only [mem_logicalLines_text, ← mem_files_rule]
  constructor
  · rintro ⟨line, ⟨output, hout, hline | rfl⟩ | hline, hf⟩
    · exact ⟨output, hout, line, hline, hf⟩
    · rw [ruleWords_nil] at hf; cases hf
    · rw [htail line hline] at hf; cases hf
  · rintro ⟨output, hout, line, hline, hf⟩
    exact ⟨line, .inl ⟨output, hout, .inl hline⟩, hf⟩

/-- The names read: what the outputs' text seems to name, and what stands
before an equals sign in a comment's line. -/
theorem mem_names_text {outputs : List Text} {files : List DepFile} {envs : List EnvDep} {n : Text} :
    n ∈ (parseDepInfo (depInfoText outputs files envs)).2.image Prod.fst ↔
      (∃ output ∈ outputs, n ∈ strayNames files output) ∨ ∃ text ∈ commentTexts envs, beforeEquals text = n := by
  rw [mem_parseDepInfo_names, ← (logicalLines_tail files envs).2]
  simp only [mem_logicalLines_text, strayNames, List.mem_filterMap]
  constructor
  · rintro ⟨line, ⟨output, hout, hline | rfl⟩ | hline, hn⟩
    · exact .inl ⟨output, hout, line, hline, hn⟩
    · rw [envName?_nil] at hn; cases hn
    · exact .inr ⟨line, hline, hn⟩
  · rintro (⟨output, hout, line, hline, hn⟩ | ⟨line, hline, hn⟩)
    · exact ⟨line, .inl ⟨output, hout, .inl hline⟩, hn⟩
    · exact ⟨line, .inr hline, hn⟩

/-- `parse_dep_info` returns the files and the names that were written. -/
def ReadBack (outputs : List Text) (files : List DepFile) (envs : List EnvDep) : Prop :=
  (parseDepInfo (depInfoText outputs files envs)).1 = (files.map (·.name)).toFinset ∧
    (parseDepInfo (depInfoText outputs files envs)).2.image Prod.fst = (envs.map (·.name)).toFinset

/-- What the parser's reading of the text rests on. -/
structure Readable (outputs : List Text) (files : List DepFile) (envs : List EnvDep) : Prop where
  /-- The only whitespace in a file's name is spaces. -/
  spaced : ∀ f ∈ files, f.Spaced
  /-- Some rule does not read as a comment (or an output's text happens to
  name the file). -/
  rule : ∀ f ∈ files, ∃ output ∈ outputs, ¬ Commented output ∨ f.name ∈ strayWords output
  /-- Every name stands before the equals sign of a comment's line, unless it is
  read elsewhere, and no other does. -/
  comments : ∀ env ∈ envs, (∃ text ∈ commentTexts envs, beforeEquals text = env.name) ∨
    ∃ output ∈ outputs, env.name ∈ strayNames files output
  names : ∀ text ∈ commentTexts envs, ∃ env ∈ envs, env.name = beforeEquals text
  /-- The outputs' text reads as no other file and no other variable. -/
  strayWords : ∀ output ∈ outputs, ∀ w ∈ strayWords output, ∃ f ∈ files, f.name = w
  strayNames : ∀ output ∈ outputs, ∀ n ∈ strayNames files output, ∃ env ∈ envs, env.name = n

theorem spaced_of_read {text w : Text} (h : w ∈ (parseDepInfo text).1) :
    ∀ c ∈ w, isWhitespace c = true → c = ' ' := by
  obtain ⟨line, -, hw⟩ := mem_parseDepInfo_files.1 h
  simp only [ruleWords] at hw
  split at hw
  · cases hw
  · split at hw
    · cases hw
    · exact splitWordsFrom_spaces hw (by simp)

theorem readable_iff (outputs : List Text) (files : List DepFile) (envs : List EnvDep) :
    ReadBack outputs files envs ↔ Readable outputs files envs := by
  simp only [ReadBack, Finset.ext_iff, List.mem_toFinset, List.mem_map]
  constructor
  · rintro ⟨hfiles, hnames⟩
    have hspaced : ∀ f ∈ files, f.Spaced := fun f hf => spaced_of_read ((hfiles f.name).2 ⟨f, hf, rfl⟩)
    refine ⟨hspaced, fun f hf => ?_, fun env he => ?_, fun text ht => ?_, fun output ho w hw => ?_,
      fun output ho n hn => ?_⟩
    · obtain ⟨output, ho, hstray | ⟨hc, -⟩⟩ := mem_files_text.1 ((hfiles f.name).2 ⟨f, hf, rfl⟩)
      · exact ⟨output, ho, .inr hstray⟩
      · exact ⟨output, ho, .inl hc⟩
    · exact (mem_names_text.1 ((hnames env.name).2 ⟨env, he, rfl⟩)).symm
    · exact (hnames _).1 (mem_names_text.2 (.inr ⟨text, ht, rfl⟩))
    · exact (hfiles w).1 (mem_files_text.2 ⟨output, ho, .inl hw⟩)
    · exact (hnames n).1 (mem_names_text.2 (.inl ⟨output, ho, hn⟩))
  · intro h
    have hjoined := splitMakefileWords_joined h.spaced
    refine ⟨fun f => ⟨fun hf => ?_, ?_⟩, fun n => ⟨fun hn => ?_, ?_⟩⟩
    · obtain ⟨output, ho, hstray | ⟨-, hf⟩⟩ := mem_files_text.1 hf
      · exact h.strayWords output ho f hstray
      · rw [hjoined] at hf; exact List.mem_map.1 hf
    · rintro ⟨d, hd, rfl⟩
      obtain ⟨output, ho, hc⟩ := h.rule d hd
      refine mem_files_text.2 ⟨output, ho, hc.symm.imp_right fun hc => ⟨hc, ?_⟩⟩
      rw [hjoined]
      exact List.mem_map_of_mem hd
    · rcases mem_names_text.1 hn with ⟨output, ho, hn⟩ | ⟨text, ht, rfl⟩
      · exact h.strayNames output ho n hn
      · exact h.names text ht
    · rintro ⟨env, he, rfl⟩
      exact mem_names_text.2 (h.comments env he).symm

/-! ## Plain outputs and names -/

/-- An output on one line, without the colon and space that end a rule's
targets, and whose rule does not begin like a comment. -/
structure PlainOutput (output : Text) : Prop where
  oneLine : '\n' ∉ output
  noColon : ¬ [':', ' '] <:+: output
  noComment : ¬ envDepPrefix <+: output ++ [':']

/-- A name without the characters that end or escape it in its comment. -/
def EnvDep.Plain (env : EnvDep) : Prop := ∀ c ∈ env.name, c ≠ '=' ∧ c ≠ '\\' ∧ c ≠ '\n' ∧ c ≠ '\r'

/-- The entries whose comment starts a line: those not run into by the one before. -/
def heads : Bool → List EnvDep → List EnvDep
  | _, [] => []
  | true, env :: envs => heads (decide env.RunsOn) envs
  | false, env :: envs => env :: heads (decide env.RunsOn) envs

/-- A rule's line with nothing of its own in it. -/
theorem PlainOutput.logicalLines {output : Text} (h : PlainOutput output) {b : Text} (hb : '\n' ∉ b) :
    logicalLines (output ++ ':' :: b) = [output ++ ':' :: b] := by
  have hn : '\n' ∉ output ++ ':' :: b := by simp [h.oneLine, hb]
  rw [Core.logicalLines, ← joinLines, joinLines_open hn, lines_single (by simp) hn]

theorem PlainOutput.strayWords {output : Text} (h : PlainOutput output) : strayWords output = [] := by
  have hnone : splitOnce [':', ' '] (output ++ [':']) = none := by
    rw [splitOnce_eq_none (by simp), List.infix_concat_iff]
    rintro (⟨r, hr⟩ | hin)
    · simpa using congrArg List.getLast? hr
    · exact h.noColon hin
  rw [Core.strayWords, h.logicalLines (by simp)]
  simp [ruleWords, h.noComment, hnone]

theorem PlainOutput.not_commented {output : Text} (h : PlainOutput output) : ¬ Commented output := by
  rw [Commented, h.logicalLines (by simp)]
  simp [h.noComment]

theorem PlainOutput.strayNames {output : Text} (h : PlainOutput output) (files : List DepFile) :
    strayNames files output = [] := by
  have hcomment : ¬ envDepPrefix <+: output ++ ':' :: ' ' :: joinedFiles files :=
    mt (envDepPrefix_rule output _).1 h.noComment
  rw [Core.strayNames, h.logicalLines (joinedFiles_line files).1]
  simp [envName?, stripPrefix?_eq_none.2 hcomment]

theorem escapeDepEnv_plain {env : EnvDep} (h : env.Plain) : escapeDepEnv env.name = env.name := by
  have hone : ∀ name : Text, (∀ c ∈ name, c ≠ '=' ∧ c ≠ '\\' ∧ c ≠ '\n' ∧ c ≠ '\r') → escapeDepEnv name = name := by
    intro name hname
    induction name with
    | nil => rfl
    | cons c name ih =>
      obtain ⟨hc, hrest⟩ := List.forall_mem_cons.1 hname
      rw [escapeDepEnv, List.flatMap_cons, ← escapeDepEnv, ih hrest]
      simp [hc]
  exact hone env.name h

/-- What stands before the equals sign is a plain name, however the line goes on. -/
theorem beforeEquals_plain {env : EnvDep} (h : env.Plain) (rest : Text) :
    beforeEquals (env.name ++ '=' :: rest) = env.name ∧ beforeEquals env.name = env.name := by
  have hname : ∀ c ∈ env.name, (c ≠ '=' : Bool) = true := fun c hc => by simpa using (h c hc).1
  refine ⟨?_, List.takeWhile_eq_self_iff.2 hname⟩
  rw [beforeEquals, List.takeWhile_append_of_pos hname]
  simp

/-- The lines of the comments start with the heads' names. -/
theorem beforeEquals_commentTexts : ∀ {envs : List EnvDep}, (∀ env ∈ envs, env.Plain) →
    (commentTexts envs).map beforeEquals = (heads false envs).map (·.name) ∧
      (commentTexts envs).tail.map beforeEquals = (heads true envs).map (·.name)
  | [], _ => ⟨rfl, rfl⟩
  | env :: envs, h => by
    obtain ⟨henv, hrest⟩ := List.forall_mem_cons.1 h
    obtain ⟨hfalse, htrue⟩ := beforeEquals_commentTexts hrest
    have hentry : entryText env = env.name ∨ ∃ value, entryText env = env.name ++ '=' :: value := by
      rw [entryText, escapeDepEnv_plain henv]
      cases env.value with
      | none => exact .inl (by simp)
      | some value => exact .inr ⟨_, rfl⟩
    rw [commentTexts]
    by_cases hrun : env.RunsOn
    · -- A plain name has no backslash to end in: the value has.
      obtain ⟨w, hw⟩ : ∃ w, (entryText env).dropLast = env.name ++ '=' :: w := by
        rcases hentry with hbare | ⟨value, hvalue⟩
        · rw [EnvDep.RunsOn, hbare] at hrun
          exact absurd rfl (henv _ (List.mem_of_getLast? hrun)).2.1
        · cases value using List.reverseRecOn with
          | nil => rw [EnvDep.RunsOn, hvalue] at hrun; simp at hrun
          | append_singleton value c =>
            refine ⟨value, ?_⟩
            rw [hvalue, ← List.cons_append, ← List.append_assoc, List.dropLast_concat]
      have hname : ∀ rest, beforeEquals (env.name ++ '=' :: w ++ rest) = env.name := fun rest => by
        rw [List.append_assoc, List.cons_append]
        exact (beforeEquals_plain henv _).1
      rw [if_pos hrun, hw, heads, heads, decide_eq_true hrun]
      cases hnext : commentTexts envs with
      | nil =>
        rw [hnext] at htrue
        have hname' := hname []
        rw [List.append_nil] at hname'
        exact ⟨congrArg₂ _ hname' htrue, htrue⟩
      | cons t ts =>
        rw [hnext] at htrue
        refine ⟨congrArg₂ _ ?_ htrue, htrue⟩
        rw [List.append_assoc]
        exact hname _
    · have hname : beforeEquals (entryText env) = env.name := by
        rcases hentry with hbare | ⟨value, hvalue⟩
        · rw [hbare]; exact (beforeEquals_plain henv []).2
        · rw [hvalue]; exact (beforeEquals_plain henv value).1
      rw [if_neg hrun, heads, heads, decide_eq_false hrun]
      exact ⟨congrArg₂ _ hname hfalse, hfalse⟩

theorem heads_subset : ∀ {joined : Bool} {envs : List EnvDep}, ∀ env ∈ heads joined envs, env ∈ envs
  | _, [], _, h => by simp [heads] at h
  | true, _ :: _, env, h => List.mem_cons_of_mem _ (heads_subset env h)
  | false, _ :: _, env, h => by
    rcases List.mem_cons.1 h with rfl | h
    · exact List.mem_cons_self
    · exact List.mem_cons_of_mem _ (heads_subset env h)

/-- With plain outputs and names, all that is left is whitespace in a file's
name, files without a rule, and entries that another one runs into. -/
theorem readable_plain {outputs : List Text} {files : List DepFile} {envs : List EnvDep}
    (hout : ∀ output ∈ outputs, PlainOutput output) (henvs : ∀ env ∈ envs, env.Plain) :
    Readable outputs files envs ↔ (∀ f ∈ files, f.Spaced) ∧ (files ≠ [] → outputs ≠ []) ∧
      ∀ env ∈ envs, ∃ head ∈ heads false envs, head.name = env.name := by
  have htexts := (beforeEquals_commentTexts henvs).1
  have hread : ∀ n, (∃ text ∈ commentTexts envs, beforeEquals text = n) ↔ ∃ head ∈ heads false envs, head.name = n := by
    intro n
    rw [← List.mem_map, htexts, List.mem_map]
  constructor
  · intro h
    refine ⟨h.spaced, fun hfiles => ?_, fun env henv => ?_⟩
    · obtain ⟨f, hf⟩ := List.exists_mem_of_ne_nil files hfiles
      obtain ⟨output, houtput, -⟩ := h.rule f hf
      exact List.ne_nil_of_mem houtput
    · refine (hread env.name).1 ((h.comments env henv).resolve_right ?_)
      rintro ⟨output, houtput, hstray⟩
      rw [(hout output houtput).strayNames] at hstray
      cases hstray
  · rintro ⟨hspaced, hrule, hheads⟩
    refine ⟨hspaced, fun f hf => ?_, fun env henv => .inl ((hread env.name).2 (hheads env henv)), fun text ht => ?_,
      fun output houtput w hw => ?_, fun output houtput n hn => ?_⟩
    · obtain ⟨output, houtput⟩ := List.exists_mem_of_ne_nil outputs (hrule (List.ne_nil_of_mem hf))
      exact ⟨output, houtput, .inl (hout output houtput).not_commented⟩
    · obtain ⟨head, hhead, hname⟩ := (hread _).1 ⟨text, ht, rfl⟩
      exact ⟨head, heads_subset head hhead, hname⟩
    · rw [(hout output houtput).strayWords] at hw; cases hw
    · rw [(hout output houtput).strayNames] at hn; cases hn

/-- **Dep-info is read back completely exactly when it is `Readable`**; between
plain outputs and names, exactly when no file's name has other whitespace than
spaces and no entry is lost to one that ends in a backslash. -/
theorem readBack_iff (outputs : List Text) (files : List DepFile) (envs : List EnvDep) :
    (ReadBack outputs files envs ↔ Readable outputs files envs) ∧
      ((∀ output ∈ outputs, PlainOutput output) → (∀ env ∈ envs, env.Plain) →
        (ReadBack outputs files envs ↔ (∀ f ∈ files, f.Spaced) ∧ (files ≠ [] → outputs ≠ []) ∧
          ∀ env ∈ envs, ∃ head ∈ heads false envs, head.name = env.name)) :=
  ⟨readable_iff outputs files envs, fun hout henvs =>
    (readable_iff outputs files envs).trans (readable_plain hout henvs)⟩

/-- A directory's value ends in a backslash; the variable after it is lost. -/
def windowsDir : EnvDep := { name := "OUT".toList, value := some "C:\\".toList }

def mode : EnvDep := { name := "MODE".toList, value := some "fast".toList }

theorem windowsDir_not_readBack : ¬ ∀ outputs files envs, ReadBack outputs files envs := by
  intro hall
  have hnames := (hall ["foo.d".toList] [] [windowsDir, mode]).2
  have hmode : "MODE".toList ∈ ([windowsDir, mode].map (·.name)).toFinset := by decide
  rw [← hnames] at hmode
  revert hmode
  decide

/-- A name with an equals sign is cut there. -/
example : ¬ ReadBack ["foo.d".toList] [] [{ name := "A=B".toList, value := none }] := by
  unfold ReadBack
  decide

end Bellows.Core
