/-
Reading the linker command that rustc prints (`parse_link_command`).

What is printed is the `Debug` of a `Command`: what was changed of the
environment, the program and its arguments, quoted with escapes. A command that
also changes the directory, or removes variables, says so in words without
quotes, and is refused.
-/
import Bellows.Core.DepInfo
import Bellows.Lib.Escapes

namespace Bellows.Cli

open Bellows.Core Escapes

structure LinkCommand where
  env : List (Text × Text) := []
  program : Text := []
  args : List Text := []
  deriving DecidableEq, Repr

def trimStart (text : Text) : Text := text.dropWhile isWhitespace

def trimEnd (text : Text) : Text := (text.reverse.dropWhile isWhitespace).reverse

def trim (text : Text) : Text := trimEnd (trimStart text)

theorem trimStart_of_head {text : Text} (h : ∀ c, text.head? = some c → isWhitespace c = false) :
    trimStart text = text := by
  cases text with
  | nil => rfl
  | cons c text => rw [trimStart, List.dropWhile_cons_of_neg (by simp [h c rfl])]

theorem trimEnd_of_getLast {text : Text} (h : ∀ c, text.getLast? = some c → isWhitespace c = false) :
    trimEnd text = text := by
  have hback : trimStart text.reverse = text.reverse :=
    trimStart_of_head fun c hc => h c (by rwa [List.head?_reverse] at hc)
  exact List.reverse_eq_iff.2 hback

/-- `char::from_u32` -/
def charFromU32 (n : Nat) : Option Char := if n.isValidChar then some (Char.ofNat n) else none

/-- The character of a short escape. -/
def unescape : Char → Option Char
  | 'n' => some '\n'
  | 't' => some '\t'
  | 'r' => some '\r'
  | '0' => some '\x00'
  | '\\' => some '\\'
  | '"' => some '"'
  | '\'' => some '\''
  | _ => none

/-- The branch of `\u`: the character of the number between braces, and what
comes after it. -/
def readUnicode : Text → Except Text (Char × Text)
  | [] => .error "bad unicode escape".toList
  | brace :: rest =>
    if brace ≠ '\x7b' then .error "bad unicode escape".toList
    else do
      let n ← fromStrRadix (rest.takeWhile (· != '\x7d'))
      match charFromU32 n with
      | none => .error "invalid unicode escape".toList
      | some c => pure (c, (rest.dropWhile (· != '\x7d')).drop 1)

theorem readUnicode_length {text : Text} {c : Char} {rest : Text} (h : readUnicode text = .ok (c, rest)) :
    rest.length ≤ text.length := by
  cases text with
  | nil => cases h
  | cons brace text =>
    simp only [readUnicode] at h
    split at h
    · cases h
    · cases hn : fromStrRadix (text.takeWhile (· != '\x7d')) with
      | error e => rw [hn] at h; cases h
      | ok n =>
        simp only [hn, bind, Except.bind] at h
        split at h
        · cases h
        · obtain ⟨-, rfl⟩ := Prod.mk.inj (Except.ok.inj h)
          have hle := (List.dropWhile_sublist (· != '\x7d') (l := text)).length_le
          simp only [List.length_drop, List.length_cons]
          omega

/-- `read_quoted`, with the value read so far. -/
def readQuoted (value : Text) (text : Text) : Except Text (Text × Text) :=
  match text with
  | [] => .error "unterminated quoted string in linker command".toList
  | '"' :: rest => .ok (value, rest)
  | ['\\'] => .error "unterminated escape".toList
  | '\\' :: 'u' :: rest =>
    match _h : readUnicode rest with
    | .error e => .error e
    | .ok (c, rest) => readQuoted (value ++ [c]) rest
  | '\\' :: escaped :: rest =>
    match unescape escaped with
    | none => .error ("unsupported escape \\".toList ++ escaped :: " in linker command".toList)
    | some c => readQuoted (value ++ [c]) rest
  | c :: rest => readQuoted (value ++ [c]) rest
termination_by text.length
decreasing_by
  · have := readUnicode_length _h
    simp only [List.length_cons]
    omega
  all_goals simp only [List.length_cons]; omega

theorem readQuoted_length {value text read rest : Text} (h : readQuoted value text = .ok (read, rest)) :
    rest.length < text.length := by
  fun_induction readQuoted value text with
  | case1 => cases h
  | case2 value rest => cases h; simp
  | case3 => cases h
  | case4 => cases h
  | case5 value text c rest' hunicode ih =>
    have := readUnicode_length hunicode
    have := ih h
    simp only [List.length_cons]
    omega
  | case6 => cases h
  | case7 value escaped text hne c hescape ih =>
    have := ih h
    simp only [List.length_cons]
    omega
  | case8 value c text _ _ _ _ ih =>
    have := ih h
    simp only [List.length_cons]
    omega

theorem trimStart_length (text : Text) : (trimStart text).length ≤ text.length :=
  (List.dropWhile_sublist _).length_le

/-- The word at the start, up to a space or a quote. -/
def firstWord (text : Text) : Text := text.takeWhile fun c => c != ' ' && c != '"'

def afterWord (text : Text) : Text := text.dropWhile fun c => c != ' ' && c != '"'

/-- The loop of `parse_link_command`. -/
def parseFrom (style : Style) (command : LinkCommand) (program : Option Text) (rest : Text) :
    Except Text LinkCommand :=
  match rest with
  | [] =>
    match program with
    | none => .error "linker command has no program".toList
    | some program => .ok { command with program := program }
  | '"' :: stripped =>
    match _h : readQuoted [] stripped with
    | .error e => .error e
    | .ok (value, remainder) =>
      match program with
      | none => parseFrom style command (some value) (trimStart remainder)
      | some program =>
        parseFrom style { command with args := command.args ++ [value] } (some program) (trimStart remainder)
  | c :: more =>
    let word := firstWord (c :: more)
    -- `cd "dir" &&`, `env -i`, `env -u NAME` change what the linker reads
    if word.getLast? = some '=' ∧ (afterWord (c :: more)).head? = some '"' ∧ program = none then
      match _h : readQuoted [] ((afterWord (c :: more)).drop 1) with
      | .error e => .error e
      | .ok (value, remainder) =>
        parseFrom style { command with env := command.env ++ [(word.dropLast, value)] } none (trimStart remainder)
    else .error ("unrecognized linker command syntax near ".toList ++ quote style word)
termination_by rest.length
decreasing_by
  · have := readQuoted_length _h
    have := trimStart_length remainder
    simp only [List.length_cons]
    omega
  · have := readQuoted_length _h
    have := trimStart_length remainder
    simp only [List.length_cons]
    omega
  · have := readQuoted_length _h
    have := trimStart_length remainder
    have hle := (List.dropWhile_sublist (fun c => c != ' ' && c != '"') (l := c :: more)).length_le
    simp only [afterWord, List.length_drop, List.length_cons] at *
    omega

/-- `parse_link_command`; the style is that of the message of a refusal. -/
def parseLinkCommand (style : Style) (text : Text) : Except Text LinkCommand :=
  parseFrom style {} none (trim text)

/-! ## What rustc prints -/

/-- A piece of an `OsString`: a character, or a byte that is part of none. -/
inductive Piece where
  | char (c : Char)
  | byte (b : UInt8)
  deriving DecidableEq

abbrev OsString := List Piece

def OsString.ofText (text : Text) : OsString := text.map .char

def upperDigit (n : Nat) : Char := if n < 10 then Char.ofNat (48 + n) else Char.ofNat (55 + n)

def Piece.escape (shown : Style) : Piece → Text
  | .char c => Escapes.escape shown c
  | .byte b => ['\\', 'x', upperDigit (b.toNat / 16), upperDigit (b.toNat % 16)]

/-- The string's `Debug`. -/
def OsString.quote (shown : Style) (s : OsString) : Text := '"' :: (s.flatMap (Piece.escape shown) ++ ['"'])

/-- A `std::process::Command`, as far as its `Debug` shows it. -/
structure Command where
  cwd : Option OsString
  envClear : Bool
  removed : List Text
  env : List (Text × OsString)
  program : OsString
  args : List OsString

/-- The words before the variables that are set. -/
def Command.debugChanges (shown : Style) (c : Command) : Text :=
  (match c.cwd with
    | some dir => "cd ".toList ++ dir.quote shown ++ " && ".toList
    | none => []) ++
  (if c.envClear then "env -i ".toList
    else if c.removed = [] then []
    else "env ".toList ++ c.removed.flatMap fun name => "-u ".toList ++ name ++ [' '])

def debugArgs (shown : Style) (args : List OsString) : Text := args.flatMap fun arg => ' ' :: arg.quote shown

/-- The variables that are set, and then the program and its arguments. -/
def debugEnv (shown : Style) (program : OsString) (args : List OsString) : List (Text × OsString) → Text
  | [] => program.quote shown ++ debugArgs shown args
  | (name, value) :: env => name ++ '=' :: (value.quote shown ++ ' ' :: debugEnv shown program args env)

/-- The command's `Debug`. -/
def Command.debug (shown : Style) (c : Command) : Text :=
  c.debugChanges shown ++ debugEnv shown c.program c.args c.env

/-! ## Strings are read back -/

theorem charFromU32_toNat (c : Char) : charFromU32 c.toNat = some c := by
  have hvalid : c.toNat.isValidChar := c.valid
  rw [charFromU32, if_pos hvalid, Char.ofNat_toNat]

theorem readUnicode_escape (c : Char) (more : Text) :
    readUnicode ('\x7b' :: (Nat.toDigits 16 c.toNat ++ '\x7d' :: more)) = .ok (c, more) := by
  have hdigits : ∀ d ∈ Nat.toDigits 16 c.toNat, (d != '\x7d') = true := by
    intro d hd
    have hne : d ≠ '\x7d' := fun h => not_mem_toDigits.2 (h ▸ hd)
    simpa using hne
  have hlt : c.toNat < 2 ^ 32 := c.val.toNat_lt
  have htake : (Nat.toDigits 16 c.toNat ++ '\x7d' :: more).takeWhile (· != '\x7d') = Nat.toDigits 16 c.toNat := by
    rw [List.takeWhile_append_of_pos hdigits]
    simp
  have hdrop : (Nat.toDigits 16 c.toNat ++ '\x7d' :: more).dropWhile (· != '\x7d') = '\x7d' :: more := by
    rw [List.dropWhile_append_of_pos hdigits]
    simp
  simp only [readUnicode, ne_eq, not_true_eq_false, if_false, htake, hdrop, fromStrRadix_toDigits hlt, bind,
    Except.bind, charFromU32_toNat]
  rfl

theorem readQuoted_unicode (value : Text) (c : Char) (more : Text) :
    readQuoted value (escapeUnicode c ++ more) = readQuoted (value ++ [c]) more := by
  simp only [escapeUnicode, List.cons_append, List.append_assoc, List.nil_append]
  rw [readQuoted]
  split
  · rename_i e h
    rw [readUnicode_escape] at h
    cases h
  · rename_i d rest h
    rw [readUnicode_escape] at h
    obtain ⟨rfl, rfl⟩ := Prod.mk.inj (Except.ok.inj h)
    rfl

theorem readQuoted_short (value : Text) {letter c : Char} (more : Text) (hu : letter ≠ 'u')
    (h : unescape letter = some c) : readQuoted value ('\\' :: letter :: more) = readQuoted (value ++ [c]) more := by
  rw [readQuoted, h]
  intro heq
  exact hu heq

theorem readQuoted_plain (value : Text) {c : Char} (more : Text) (hquote : c ≠ '"') (hslash : c ≠ '\\') :
    readQuoted value (c :: more) = readQuoted (value ++ [c]) more := by
  rw [readQuoted]
  · exact hquote
  · intro h; exact absurd h hslash
  · intro _ h; exact absurd h hslash
  · intro _ _ h; exact absurd h hslash

theorem unescape_shortEscape {shown : Style} {c letter : Char} (h : shortEscape shown c = some letter) :
    letter ≠ 'u' ∧ unescape letter = some c := by
  simp only [shortEscape] at h
  split_ifs at h with hc hc hc hc hc hc hc
  · cases h; exact ⟨by decide, congrArg some hc.symm⟩
  · cases h; exact ⟨by decide, congrArg some hc.symm⟩
  · cases h; exact ⟨by decide, congrArg some hc.symm⟩
  · cases h; exact ⟨by decide, congrArg some hc.symm⟩
  · cases h; exact ⟨by decide, congrArg some hc.symm⟩
  · cases h; exact ⟨by decide, congrArg some hc.symm⟩
  · cases h; exact ⟨by decide, congrArg some hc.1.symm⟩

/-- Each escape is read as its character. -/
theorem readQuoted_escape (shown : Style) (value : Text) (c : Char) (more : Text) :
    readQuoted value (Escapes.escape shown c ++ more) = readQuoted (value ++ [c]) more := by
  unfold Escapes.escape
  split
  · rename_i letter h
    obtain ⟨hu, hletter⟩ := unescape_shortEscape h
    exact readQuoted_short value more hu hletter
  · rename_i h
    split
    · have hne : c ≠ '"' ∧ c ≠ '\\' := by
        constructor <;> intro heq <;> subst heq <;> simp [shortEscape] at h
      exact readQuoted_plain value more hne.1 hne.2
    · exact readQuoted_unicode value c more

/-- The strings that are text (`to_str`). -/
def OsString.toStr : OsString → Option Text
  | [] => some []
  | .char c :: s => (toStr s).map (c :: ·)
  | .byte _ :: _ => none

theorem OsString.toStr_ofText : ∀ text : Text, (OsString.ofText text).toStr = some text
  | [] => rfl
  | c :: text => by
    have ih := toStr_ofText text
    simp only [ofText] at ih
    simp [ofText, toStr, ih]

theorem OsString.toStr_eq_none {s : OsString} : s.toStr = none ↔ ∃ b, .byte b ∈ s := by
  induction s with
  | nil => simp [toStr]
  | cons piece s ih =>
    cases piece with
    | char c => simp [toStr, ih]
    | byte b => exact ⟨fun _ => ⟨b, List.mem_cons_self⟩, fun _ => rfl⟩

def unsupportedByte : Text := "unsupported escape \\x in linker command".toList

/-- A quoted string is read back, or refused for a byte in it. -/
theorem readQuoted_quoted (shown : Style) (more : Text) : ∀ (value : Text) (s : OsString),
    readQuoted value (s.flatMap (Piece.escape shown) ++ '"' :: more) =
      match s.toStr with
      | some text => .ok (value ++ text, more)
      | none => .error unsupportedByte
  | value, [] => by simp [readQuoted, OsString.toStr]
  | value, .byte b :: s => by
    simp only [List.flatMap_cons, Piece.escape, List.cons_append, List.nil_append]
    rw [readQuoted]
    · rfl
    · decide
  | value, .char c :: s => by
    rw [List.flatMap_cons, List.append_assoc, Piece.escape, readQuoted_escape, readQuoted_quoted shown more _ s,
      OsString.toStr]
    cases OsString.toStr s with
    | none => rfl
    | some text => simp

/-! ## The loop -/

/-- What starts neither with a quote nor with a blank. -/
def Bare (text : Text) : Prop := ∃ c rest, text = c :: rest ∧ c ≠ '"' ∧ isWhitespace c = false

theorem parseFrom_quoted (style shown : Style) (command : LinkCommand) (program : Option Text) (s : OsString)
    (more : Text) : parseFrom style command program (s.quote shown ++ more) =
      match s.toStr with
      | none => .error unsupportedByte
      | some value =>
        match program with
        | none => parseFrom style command (some value) (trimStart more)
        | some program =>
          parseFrom style { command with args := command.args ++ [value] } (some program) (trimStart more) := by
  have hread := readQuoted_quoted shown more [] s
  rw [OsString.quote, List.cons_append, List.append_assoc, List.singleton_append, parseFrom]
  split
  · rename_i e h
    rw [h] at hread
    cases hs : s.toStr with
    | none => rw [hs] at hread; cases hread; rfl
    | some value => rw [hs] at hread; cases hread
  · rename_i value remainder h
    rw [h] at hread
    cases hs : s.toStr with
    | none => rw [hs] at hread; cases hread
    | some value => rw [hs] at hread; cases hread; rfl

theorem parseFrom_bare (style : Style) (command : LinkCommand) (program : Option Text) {text : Text}
    (h : Bare text) : parseFrom style command program text =
      if (firstWord text).getLast? = some '=' ∧ (afterWord text).head? = some '"' ∧ program = none then
        match readQuoted [] ((afterWord text).drop 1) with
        | .error e => .error e
        | .ok (value, remainder) =>
          parseFrom style { command with env := command.env ++ [((firstWord text).dropLast, value)] } none
            (trimStart remainder)
      else .error ("unrecognized linker command syntax near ".toList ++ quote style (firstWord text)) := by
  obtain ⟨c, rest, rfl, hquote, -⟩ := h
  rw [parseFrom]
  · split
    · split
      · rename_i e h
        rw [h]
      · rename_i value remainder h
        rw [h]
    · rfl
  · exact hquote

/-- A name without whitespace, quotes or `=`. -/
def PlainName (name : Text) : Prop := ∀ c ∈ name, isWhitespace c = false ∧ c ≠ '"' ∧ c ≠ '='

instance (name : Text) : Decidable (PlainName name) :=
  List.decidableBAll (fun c => isWhitespace c = false ∧ c ≠ '"' ∧ c ≠ '=') name

theorem PlainName.bare {name : Text} (h : PlainName name) (rest : Text) : Bare (name ++ '=' :: rest) := by
  cases name with
  | nil => exact ⟨'=', rest, rfl, by decide, by decide⟩
  | cons c name =>
    obtain ⟨hblank, hquote, -⟩ := h c List.mem_cons_self
    exact ⟨c, name ++ '=' :: rest, rfl, hquote, hblank⟩

/-- A word ends where the first space or quote is. -/
theorem word_append {word : Text} (h : ∀ c ∈ word, c ≠ ' ' ∧ c ≠ '"') (rest : Text)
    (hrest : rest = [] ∨ rest.head? = some ' ' ∨ rest.head? = some '"') :
    firstWord (word ++ rest) = word ∧ afterWord (word ++ rest) = rest := by
  have hword : ∀ c ∈ word, (c != ' ' && c != '"') = true := by
    intro c hc
    simpa using h c hc
  have hstop : ∀ c, c = ' ' ∨ c = '"' → (c != ' ' && c != '"') = false := by simp
  rw [firstWord, afterWord, List.takeWhile_append_of_pos hword, List.dropWhile_append_of_pos hword]
  rcases hrest with rfl | hrest
  · simp
  · have hhead : rest.head? = some ' ' ∨ rest.head? = some '"' := hrest
    cases rest with
    | nil => simp at hhead
    | cons c rest =>
      have hc := hstop c (by simpa using hhead)
      rw [List.takeWhile_cons_of_neg (by simpa using hc), List.dropWhile_cons_of_neg (by simpa using hc)]
      simp

theorem PlainName.ne {name : Text} (h : PlainName name) : ∀ c ∈ name ++ ['='], c ≠ ' ' ∧ c ≠ '"' := by
  intro c hc
  rcases List.mem_append.1 hc with hc | hc
  · obtain ⟨hblank, hquote, -⟩ := h c hc
    exact ⟨fun h => by subst h; exact absurd hblank (by decide), hquote⟩
  · obtain rfl := List.mem_singleton.1 hc
    exact ⟨by decide, by decide⟩

theorem parseFrom_assignment (style shown : Style) (command : LinkCommand) {name : Text} (hname : PlainName name)
    (s : OsString) (more : Text) : parseFrom style command none (name ++ '=' :: (s.quote shown ++ more)) =
      match s.toStr with
      | none => .error unsupportedByte
      | some value =>
        parseFrom style { command with env := command.env ++ [(name, value)] } none (trimStart more) := by
  have hread := readQuoted_quoted shown more [] s
  obtain ⟨hfirst, hafter⟩ := word_append hname.ne (s.quote shown ++ more) (.inr (.inr rfl))
  rw [List.append_assoc, List.singleton_append] at hfirst hafter
  have hdrop : (s.quote shown ++ more).drop 1 = s.flatMap (Piece.escape shown) ++ '"' :: more := by
    simp [OsString.quote]
  have hhead : (s.quote shown ++ more).head? = some '"' := rfl
  rw [parseFrom_bare _ _ _ (hname.bare _), hfirst, hafter, hdrop, hread,
    if_pos ⟨List.getLast?_concat, hhead, rfl⟩, List.dropLast_concat]
  cases s.toStr with
  | none => rfl
  | some value => rfl

/-- Any other word is refused, wherever it stands. -/
theorem parseFrom_word (style : Style) (command : LinkCommand) (program : Option Text) {word rest : Text}
    (hne : word ≠ []) (hword : ∀ c ∈ word, isWhitespace c = false ∧ c ≠ '"')
    (hrest : rest = [] ∨ rest.head? = some ' ') : parseFrom style command program (word ++ rest) =
      .error ("unrecognized linker command syntax near ".toList ++ quote style word) := by
  have hplain : ∀ c ∈ word, c ≠ ' ' ∧ c ≠ '"' := by
    intro c hc
    refine ⟨?_, (hword c hc).2⟩
    intro h
    subst h
    exact absurd (hword _ hc).1 (by decide)
  have hbare : Bare (word ++ rest) := by
    cases word with
    | nil => exact absurd rfl hne
    | cons c word => exact ⟨c, word ++ rest, rfl, (hword c List.mem_cons_self).2, (hword c List.mem_cons_self).1⟩
  have hends : rest = [] ∨ rest.head? = some ' ' ∨ rest.head? = some '"' := by
    rcases hrest with h | h
    · exact .inl h
    · exact .inr (.inl h)
  obtain ⟨hfirst, hafter⟩ := word_append hplain rest hends
  rw [parseFrom_bare _ _ _ hbare, hfirst, hafter, if_neg]
  intro h
  rcases hrest with rfl | hrest
  · exact absurd h.2.1 (by simp)
  · rw [hrest] at h
    exact absurd h.2.1 (by decide)

/-! ## The whole command -/

/-- A blank before what is not one. -/
theorem trimStart_space {c : Char} (h : isWhitespace c = false) (rest : Text) :
    trimStart (' ' :: c :: rest) = c :: rest := by
  rw [trimStart, List.dropWhile_cons_of_pos (by decide), List.dropWhile_cons_of_neg (by simp [h])]

/-- The command, if all its strings are text. -/
def readBack (program : OsString) (args : List OsString) (env : List (Text × OsString)) : Option LinkCommand := do
  let env ← env.mapM fun v => v.2.toStr.map fun value => (v.1, value)
  let program ← program.toStr
  let args ← args.mapM OsString.toStr
  some { env, program, args }

theorem readBack_cons (program : OsString) (args : List OsString) (name : Text) (s : OsString)
    (env : List (Text × OsString)) : readBack program args ((name, s) :: env) =
      s.toStr.bind fun value => (readBack program args env).map fun l => { l with env := (name, value) :: l.env } := by
  unfold readBack
  rw [List.mapM_cons]
  cases s.toStr with
  | none => rfl
  | some value =>
    cases env.mapM (fun v => v.2.toStr.map fun value => (v.1, value)) with
    | none => rfl
    | some values =>
      cases program.toStr with
      | none => rfl
      | some program =>
        cases args.mapM OsString.toStr with
        | none => rfl
        | some args => rfl

theorem parseFrom_args (style shown : Style) (program : Text) : ∀ (args : List OsString) (command : LinkCommand),
    parseFrom style command (some program) (trimStart (debugArgs shown args)) =
      match args.mapM OsString.toStr with
      | none => .error unsupportedByte
      | some args => .ok { command with program := program, args := command.args ++ args }
  | [], command => by simp [debugArgs, trimStart, parseFrom]
  | arg :: args, command => by
    have hrest : trimStart (debugArgs shown (arg :: args)) = arg.quote shown ++ debugArgs shown args :=
      trimStart_space (by decide) _
    rw [hrest, parseFrom_quoted, List.mapM_cons]
    cases arg.toStr with
    | none => rfl
    | some value =>
      simp only [parseFrom_args style shown program args]
      cases args.mapM OsString.toStr with
      | none => rfl
      | some values => simp

theorem debugEnv_head (shown : Style) (program : OsString) (args : List OsString) {env : List (Text × OsString)}
    (hnames : ∀ v ∈ env, PlainName v.1) :
    ∃ c rest, debugEnv shown program args env = c :: rest ∧ isWhitespace c = false := by
  cases env with
  | nil => exact ⟨'"', _, rfl, by decide⟩
  | cons v env =>
    obtain ⟨c, rest, heq, -, hblank⟩ :=
      (hnames v List.mem_cons_self).bare (v.2.quote shown ++ ' ' :: debugEnv shown program args env)
    exact ⟨c, rest, heq, hblank⟩

/-- The variables one by one, and then the program and its arguments. -/
theorem parseFrom_debugEnv (style shown : Style) (program : OsString) (args : List OsString) :
    ∀ (env : List (Text × OsString)) (command : LinkCommand), (∀ v ∈ env, PlainName v.1) →
      parseFrom style command none (debugEnv shown program args env) =
        match readBack program args env with
        | none => .error unsupportedByte
        | some l => .ok { env := command.env ++ l.env, program := l.program, args := command.args ++ l.args }
  | [], command, _ => by
    rw [debugEnv, parseFrom_quoted, readBack]
    cases program.toStr with
    | none => rfl
    | some value =>
      simp only [parseFrom_args]
      cases args.mapM OsString.toStr with
      | none => rfl
      | some values => simp
  | (name, value) :: env, command, hnames => by
    obtain ⟨hname, henv⟩ := List.forall_mem_cons.1 hnames
    obtain ⟨c, rest, hhead, hblank⟩ := debugEnv_head shown program args henv
    have htrim : trimStart (' ' :: debugEnv shown program args env) = debugEnv shown program args env := by
      rw [hhead, trimStart_space hblank]
    rw [debugEnv, parseFrom_assignment style shown command hname, readBack_cons]
    cases value.toStr with
    | none => rfl
    | some text =>
      simp only [htrim, parseFrom_debugEnv style shown program args env _ henv]
      cases readBack program args env with
      | none => rfl
      | some l => simp

theorem debugArgs_last (shown : Style) (s : OsString) (args : List OsString) :
    ∃ text, s.quote shown ++ debugArgs shown args = text ++ ['"'] := by
  induction args generalizing s with
  | nil => exact ⟨'"' :: s.flatMap (Piece.escape shown), by simp [debugArgs, OsString.quote]⟩
  | cons arg args ih =>
    obtain ⟨text, htext⟩ := ih arg
    refine ⟨s.quote shown ++ ' ' :: text, ?_⟩
    rw [List.append_assoc, List.cons_append, ← htext]
    rfl

theorem debugEnv_last (shown : Style) (program : OsString) (args : List OsString) (env : List (Text × OsString)) :
    ∃ text, debugEnv shown program args env = text ++ ['"'] := by
  induction env with
  | nil => exact debugArgs_last shown program args
  | cons v env ih =>
    obtain ⟨text, htext⟩ := ih
    refine ⟨v.1 ++ '=' :: (v.2.quote shown ++ ' ' :: text), ?_⟩
    simp only [debugEnv, htext, List.append_assoc, List.cons_append]

/-- A command's text has no blanks around it. -/
theorem trim_debugEnv (shown : Style) (program : OsString) (args : List OsString) {env : List (Text × OsString)}
    (hnames : ∀ v ∈ env, PlainName v.1) :
    trim (debugEnv shown program args env) = debugEnv shown program args env := by
  obtain ⟨c, rest, hhead, hblank⟩ := debugEnv_head shown program args hnames
  obtain ⟨text, hlast⟩ := debugEnv_last shown program args env
  have hstart : trimStart (debugEnv shown program args env) = debugEnv shown program args env := by
    refine trimStart_of_head fun d hd => ?_
    rw [hhead] at hd
    obtain rfl := Option.some.inj hd
    exact hblank
  rw [trim, hstart, hlast]
  refine trimEnd_of_getLast fun d hd => ?_
  rw [List.getLast?_concat] at hd
  obtain rfl := Option.some.inj hd
  decide

/-- What is trimmed off a text after its first word. -/
theorem trim_word {word : Text} (hne : word ≠ []) (hword : ∀ c ∈ word, isWhitespace c = false) (more : Text) :
    ∃ rest, trim (word ++ ' ' :: more) = word ++ rest ∧ (rest = [] ∨ rest.head? = some ' ') := by
  have hstart : trimStart (word ++ ' ' :: more) = word ++ ' ' :: more := by
    refine trimStart_of_head fun c hc => hword c ?_
    rw [List.head?_append_of_ne_nil _ hne] at hc
    exact List.mem_of_mem_head? hc
  have hlast : word.reverse.dropWhile isWhitespace = word.reverse :=
    trimStart_of_head fun c hc => hword c (List.mem_reverse.1 (List.mem_of_mem_head? hc))
  rw [trim, hstart, trimEnd, List.reverse_append, List.dropWhile_append, hlast]
  split
  · exact ⟨[], by simp, .inl rfl⟩
  · rename_i hleft
    obtain ⟨dropped, hdropped⟩ := List.dropWhile_suffix isWhitespace (l := (' ' :: more).reverse)
    refine ⟨((' ' :: more).reverse.dropWhile isWhitespace).reverse, by simp, .inr ?_⟩
    have hmore : ((' ' :: more).reverse.dropWhile isWhitespace).reverse ++ dropped.reverse = ' ' :: more := by
      rw [← List.reverse_append, hdropped, List.reverse_reverse]
    cases hkept : ((' ' :: more).reverse.dropWhile isWhitespace).reverse with
    | nil => exact absurd (List.isEmpty_iff.2 (List.reverse_eq_nil_iff.1 hkept)) hleft
    | cons c kept =>
      rw [hkept] at hmore
      exact congrArg some (List.cons.inj hmore).1

/-- A text whose first word is not quoted is refused. -/
theorem parseLinkCommand_word (style : Style) {word : Text} (hne : word ≠ [])
    (hword : ∀ c ∈ word, isWhitespace c = false ∧ c ≠ '"') (more : Text) :
    parseLinkCommand style (word ++ ' ' :: more) =
      .error ("unrecognized linker command syntax near ".toList ++ quote style word) := by
  obtain ⟨rest, htrim, hrest⟩ := trim_word hne (fun c hc => (hword c hc).1) more
  rw [parseLinkCommand, htrim, parseFrom_word style {} none hne hword hrest]

theorem parseLinkCommand_cd (style : Style) (more : Text) : parseLinkCommand style ("cd".toList ++ ' ' :: more) =
    .error ("unrecognized linker command syntax near ".toList ++ quote style "cd".toList) := by
  have hne : "cd".toList ≠ [] := by decide
  have hword : ∀ c ∈ "cd".toList, isWhitespace c = false ∧ c ≠ '"' := by simp [isWhitespace]
  exact parseLinkCommand_word style hne hword more

theorem parseLinkCommand_env (style : Style) (more : Text) : parseLinkCommand style ("env".toList ++ ' ' :: more) =
    .error ("unrecognized linker command syntax near ".toList ++ quote style "env".toList) := by
  have hne : "env".toList ≠ [] := by decide
  have hword : ∀ c ∈ "env".toList, isWhitespace c = false ∧ c ≠ '"' := by simp [isWhitespace]
  exact parseLinkCommand_word style hne hword more

/-- Every command that `Debug` shows is read back, or refused for its first
word without quotes, or for a byte that is not text. -/
theorem parseLinkCommand_debug (style shown : Style) (c : Command) (hnames : ∀ v ∈ c.env, PlainName v.1) :
    parseLinkCommand style (c.debug shown) =
      if c.cwd ≠ none then .error ("unrecognized linker command syntax near ".toList ++ quote style "cd".toList)
      else if c.envClear ∨ c.removed ≠ [] then
        .error ("unrecognized linker command syntax near ".toList ++ quote style "env".toList)
      else match readBack c.program c.args c.env with
        | none => .error unsupportedByte
        | some l => .ok l := by
  obtain ⟨cwd, envClear, removed, env, program, args⟩ := c
  cases cwd with
  | some dir =>
    have htext : Command.debug shown ⟨some dir, envClear, removed, env, program, args⟩ =
        "cd".toList ++ ' ' :: (dir.quote shown ++ " && ".toList ++
          (Command.debugChanges shown ⟨none, envClear, removed, env, program, args⟩ ++
            debugEnv shown program args env)) := by
      have hword : "cd ".toList = "cd".toList ++ [' '] := by decide
      simp only [Command.debug, Command.debugChanges, hword, List.append_assoc, List.cons_append, List.nil_append]
    rw [htext, parseLinkCommand_cd, if_pos (by simp)]
  | none =>
    rw [if_neg (by simp)]
    by_cases hclear : envClear = true
    · have htext : Command.debug shown ⟨none, envClear, removed, env, program, args⟩ =
          "env".toList ++ ' ' :: ("-i ".toList ++ debugEnv shown program args env) := by
        simp [Command.debug, Command.debugChanges, hclear]
      rw [htext, parseLinkCommand_env, if_pos (.inl hclear)]
    · by_cases hremoved : removed = []
      · have htext : Command.debug shown ⟨none, envClear, removed, env, program, args⟩ =
            debugEnv shown program args env := by
          simp [Command.debug, Command.debugChanges, hclear, hremoved]
        rw [htext, parseLinkCommand, trim_debugEnv shown program args hnames,
          parseFrom_debugEnv style shown program args env {} hnames, if_neg (by simp [hclear, hremoved])]
        cases readBack program args env with
        | none => rfl
        | some l => simp
      · have htext : Command.debug shown ⟨none, envClear, removed, env, program, args⟩ =
            "env".toList ++ ' ' :: (removed.flatMap (fun name => "-u ".toList ++ name ++ [' ']) ++
              debugEnv shown program args env) := by
          simp [Command.debug, Command.debugChanges, hclear, hremoved]
        rw [htext, parseLinkCommand_env, if_pos (.inr hremoved)]

def Command.strings (c : Command) : List OsString := c.env.map (·.2) ++ c.program :: c.args

theorem mapM_toStr {args : List OsString} {texts : List Text} (h : args.mapM OsString.toStr = some texts) :
    ∀ s ∈ args, s.toStr ≠ none := by
  induction args generalizing texts with
  | nil => simp
  | cons arg args ih =>
    rw [List.mapM_cons] at h
    cases harg : arg.toStr with
    | none => rw [harg] at h; cases h
    | some text =>
      cases hargs : args.mapM OsString.toStr with
      | none => rw [harg, hargs] at h; cases h
      | some texts => exact List.forall_mem_cons.2 ⟨by simp [harg], ih hargs⟩

/-- What is read back is all text. -/
theorem readBack_toStr {program : OsString} {args : List OsString} {env : List (Text × OsString)} {l : LinkCommand}
    (h : readBack program args env = some l) : ∀ s ∈ env.map (·.2) ++ program :: args, s.toStr ≠ none := by
  induction env generalizing l with
  | nil =>
    cases hprogram : program.toStr with
    | none => rw [readBack, hprogram] at h; cases h
    | some text =>
      cases hargs : args.mapM OsString.toStr with
      | none => rw [readBack, hprogram, hargs] at h; cases h
      | some texts => exact List.forall_mem_cons.2 ⟨by simp [hprogram], mapM_toStr hargs⟩
  | cons v env ih =>
    obtain ⟨name, value⟩ := v
    rw [readBack_cons] at h
    cases hvalue : value.toStr with
    | none => rw [hvalue] at h; cases h
    | some text =>
      cases hrest : readBack program args env with
      | none => rw [hvalue, hrest] at h; cases h
      | some l => exact List.forall_mem_cons.2 ⟨by simp [hvalue], ih hrest⟩

theorem readBack_ofText (program : Text) (args : List Text) (env : List (Text × Text)) :
    readBack (.ofText program) (args.map .ofText) (env.map fun v => (v.1, .ofText v.2)) =
      some { env, program, args } := by
  have hargs : ∀ args : List Text, (args.map OsString.ofText).mapM OsString.toStr = some args := by
    intro args
    induction args with
    | nil => rfl
    | cons arg args ih => rw [List.map_cons, List.mapM_cons, OsString.toStr_ofText, ih]; rfl
  induction env with
  | nil => simp [readBack, OsString.toStr_ofText, hargs]
  | cons v env ih => rw [List.map_cons, readBack_cons, OsString.toStr_ofText, ih]; rfl

/-- A command whose strings are text is read back exactly; one that has a word
without quotes before it, or a byte that is not text, is refused. -/
theorem parseLinkCommand_exact (style shown : Style) :
    (∀ (env : List (Text × Text)) (program : Text) (args : List Text), (∀ v ∈ env, PlainName v.1) →
      parseLinkCommand style (Command.debug shown
        ⟨none, false, [], env.map fun v => (v.1, .ofText v.2), .ofText program, args.map .ofText⟩) =
          .ok { env, program, args }) ∧
    (∀ (word more : Text), word ≠ [] → (∀ c ∈ word, isWhitespace c = false ∧ c ≠ '"') →
      ∃ e, parseLinkCommand style (word ++ ' ' :: more) = .error e) ∧
    ∀ c : Command, (∀ v ∈ c.env, PlainName v.1) →
      (c.cwd ≠ none ∨ c.envClear ∨ c.removed ≠ [] ∨ ∃ s ∈ c.strings, ∃ b, .byte b ∈ s) →
        ∃ e, parseLinkCommand style (c.debug shown) = .error e := by
  refine ⟨?_, ?_, ?_⟩
  · intro env program args hnames
    have hnames' : ∀ v ∈ env.map (fun v => (v.1, OsString.ofText v.2)), PlainName v.1 := by
      intro v hv
      obtain ⟨w, hw, rfl⟩ := List.mem_map.1 hv
      exact hnames w hw
    rw [parseLinkCommand_debug style shown _ hnames']
    simp [readBack_ofText]
  · intro word more hne hword
    exact ⟨_, parseLinkCommand_word style hne hword more⟩
  · intro c hnames hbad
    rw [parseLinkCommand_debug style shown c hnames]
    split
    · exact ⟨_, rfl⟩
    · split
      · exact ⟨_, rfl⟩
      · rename_i hcwd hchanges
        have hbyte : ∃ s ∈ c.strings, ∃ b, .byte b ∈ s := by
          rcases hbad with h | h | h | h
          · exact absurd h hcwd
          · exact absurd (.inl h) hchanges
          · exact absurd (.inr h) hchanges
          · exact h
        obtain ⟨s, hs, hb⟩ := hbyte
        cases hread : readBack c.program c.args c.env with
        | none => exact ⟨_, rfl⟩
        | some l => exact absurd (OsString.toStr_eq_none.2 hb) (readBack_toStr hread s hs)

/-- ASCII as it is, all else by number. -/
def asciiStyle : Style := ⟨fun c => ' ' ≤ c ∧ c ≤ '~', false⟩

/-- What the repository's test reads, and a byte that no character has. -/
theorem parseLinkCommand_example :
    parseLinkCommand asciiStyle "PATH=\"/a:/b\" \"cc\" \"/tmp/x y/a.o\" \"quote\\\"d\" \"\\u\x7be9\x7d\"".toList =
      .ok ⟨[("PATH".toList, "/a:/b".toList)], "cc".toList, ["/tmp/x y/a.o".toList, "quote\"d".toList, ['é']]⟩ ∧
    ∃ e, parseLinkCommand asciiStyle "\"cc\" \"\\xFF\"".toList = .error e := by
  have hall := parseLinkCommand_exact asciiStyle asciiStyle
  have hread := hall.1 [("PATH".toList, "/a:/b".toList)] "cc".toList
    ["/tmp/x y/a.o".toList, "quote\"d".toList, ['é']] (by decide +kernel)
  have hbyte := hall.2.2 ⟨none, false, [], [], .ofText "cc".toList, [[.byte 255]]⟩ (by simp)
    (.inr (.inr (.inr ⟨[.byte 255], by decide +kernel, 255, by decide +kernel⟩)))
  have htext : "PATH=\"/a:/b\" \"cc\" \"/tmp/x y/a.o\" \"quote\\\"d\" \"\\u\x7be9\x7d\"".toList =
      Command.debug asciiStyle ⟨none, false, [], [("PATH".toList, .ofText "/a:/b".toList)], .ofText "cc".toList,
        ["/tmp/x y/a.o".toList, "quote\"d".toList, ['é']].map .ofText⟩ := by
    decide +kernel
  have hbroken : "\"cc\" \"\\xFF\"".toList =
      Command.debug asciiStyle ⟨none, false, [], [], .ofText "cc".toList, [[.byte 255]]⟩ := by
    decide +kernel
  rw [htext, hbroken]
  exact ⟨hread, hbyte⟩

end Bellows.Cli
