/-
Member names of `ar` archives (`archive::member_names`), in the layouts of GNU
and of BSD. Every slice of the source is one here, which fails where it would
be out of range; so does every error path.
-/
import Mathlib.Data.List.DropRight
import Bellows.Cli.Candidate
import Bellows.Cli.LinkCommand
import Bellows.Lib.Checked
import Bellows.Lib.Utf8

namespace Bellows.Cli.Archive

open Text Checked Bellows.Core

abbrev Bytes := List UInt8

inductive ArchiveError where
  | failed (message : String)
  | notUtf8
  /-- An index out of range. -/
  | panicked
  deriving DecidableEq, Repr

def MAGIC : Bytes := utf8 "!<arch>\n".toList

def HEADER : Nat := 60

/-! ## Reading -/

/-- `&bytes[start..stop]` -/
def slice (bytes : Bytes) (start stop : Nat) : Except ArchiveError Bytes :=
  if start ≤ stop ∧ stop ≤ bytes.length then return (bytes.drop start).take (stop - start) else throw .panicked

def trimEndMatches (c : Char) (text : Text) : Text := text.rdropWhile (· == c)

/-- One digit more of a `usize`. -/
def pushDecimal (n : Nat) (c : Char) : Option Nat :=
  if c.isDigit ∧ n * 10 + (c.toNat - '0'.toNat) < 2 ^ 64 then some (n * 10 + (c.toNat - '0'.toNat)) else none

/-- `str::parse::<usize>` -/
def parseUsize : Text → Option Nat
  | [] => none
  | ['+'] => none
  | '+' :: digits => digits.foldlM pushDecimal 0
  | digits => digits.foldlM pushDecimal 0

def SYMBOL_TABLES : List Text := ["/".toList, "/SYM64/".toList, "__.SYMDEF".toList, "__.SYMDEF SORTED".toList]

def SYMDEF : Text := "__.SYMDEF".toList

/-- The name in a member's header and the size of its data. -/
def readHeader (bytes : Bytes) (offset : Nat) : Except ArchiveError (Text × Nat) := do
  let header ← slice bytes offset (offset + HEADER)
  let terminator ← slice header 58 60
  refuseIf (terminator ≠ [0x60, 0x0A]) (.failed ("corrupt ar member header at " ++ toString offset))
  let name ← slice header 0 16
  let rawName ← okOr (fromUtf8 name) .notUtf8
  let size ← slice header 48 58
  let size ← okOr (fromUtf8 size) .notUtf8
  let size ← okOr (parseUsize (trim size)) (.failed "ar member size")
  return (trimEnd rawName, size)

/-- The name of a member that is not the table of long names; none of a table
of symbols. -/
def readName (longNames data : Bytes) (rawName : Text) : Except ArchiveError (Option Text) :=
  if rawName ∈ SYMBOL_TABLES then return none
  else
    match stripPrefix? "#1/".toList rawName with
    | some length => do
      let length ← okOr (parseUsize length) (.failed "BSD name length")
      refuseIf (data.length < length) (.failed "BSD name exceeds member")
      let name := trimEndMatches '\x00' (Utf8.lossy (data.take length))
      return if SYMDEF <+: name then none else some name
    | none =>
      match stripPrefix? "/".toList rawName with
      | some index => do
        let index ← okOr (parseUsize index) (.failed "long name index")
        refuseIf (longNames.length < index) (.failed "long name out of range")
        let rest := longNames.drop index
        let stop := (rest.findIdx? fun b => b == 0x0A || b == 0).getD rest.length
        let name ← slice rest 0 stop
        return some (trimEndMatches '/' (Utf8.lossy name))
      | none => return some (trimEndMatches '/' rawName)

/-- What one round of the loop yields. -/
structure Round where
  name : Option Text
  longNames : Bytes
  next : Nat

def readMember (bytes longNames : Bytes) (offset : Nat) : Except ArchiveError Round := do
  let (rawName, size) ← readHeader bytes offset
  let dataStart := offset + HEADER
  let dataEnd := dataStart + size
  refuseIf (bytes.length < dataEnd) (.failed "ar member exceeds archive")
  let data ← slice bytes dataStart dataEnd
  let next := dataEnd + size % 2
  if rawName = "//".toList then return ⟨none, data, next⟩
  else
    let name ← readName longNames data rawName
    return ⟨name, longNames, next⟩

theorem readMember_next {bytes longNames : Bytes} {offset : Nat} {r : Round}
    (h : readMember bytes longNames offset = .ok r) : offset + HEADER ≤ r.next := by
  simp only [readMember, bind_eq_ok, refuseIf_eq_ok] at h
  obtain ⟨⟨rawName, size⟩, -, -, -, data, -, h⟩ := h
  split at h
  · obtain rfl := pure_eq_ok.1 h
    dsimp only
    omega
  · obtain ⟨name, -, h⟩ := bind_eq_ok.1 h
    obtain rfl := pure_eq_ok.1 h
    dsimp only
    omega

/-- The loop, from an offset on. -/
def namesFrom (bytes longNames : Bytes) (offset : Nat) (names : List Text) : Except ArchiveError (List Text) :=
  if offset + HEADER ≤ bytes.length then
    match _h : readMember bytes longNames offset with
    | .error e => .error e
    | .ok r => namesFrom bytes r.longNames r.next (names ++ r.name.toList)
  else .ok names
termination_by bytes.length - offset
decreasing_by
  have := readMember_next _h
  have : HEADER = 60 := rfl
  omega

def memberNames (bytes : Bytes) : Except ArchiveError (List Text) :=
  if MAGIC <+: bytes then namesFrom bytes [] MAGIC.length [] else .error (.failed "not an ar archive")

/-! ## The layouts -/

def padded (width : Nat) (bytes : Bytes) : Bytes := bytes ++ List.replicate (width - bytes.length) 0x20

def decimal (n : Nat) : Text := Nat.toDigits 10 n

/-- What a member is, by its header: GNU's tables and names, then BSD's. -/
inductive Content where
  | symbols (table : Text) (data : Bytes)
  | longNames (table : Bytes)
  | short (name : Text) (data : Bytes)
  | long (name : Text) (index : Nat) (data : Bytes)
  | namedSymbols (name : Text) (padding : Nat) (data : Bytes)
  | named (name : Text) (padding : Nat) (data : Bytes)
  | plain (name : Text) (data : Bytes)

/-- A name before the data, with NULs after it. -/
def withName (name : Text) (padding : Nat) (data : Bytes) : Bytes := utf8 name ++ List.replicate padding 0 ++ data

def Content.headerName : Content → Text
  | .symbols table _ => table
  | .longNames _ => "//".toList
  | .short name _ => name ++ ['/']
  | .long _ index _ => '/' :: decimal index
  | .namedSymbols name padding _ | .named name padding _ => "#1/".toList ++ decimal ((utf8 name).length + padding)
  | .plain name _ => name

def Content.data : Content → Bytes
  | .symbols _ data | .longNames data | .short _ data | .long _ _ data | .plain _ data => data
  | .namedSymbols name padding data | .named name padding data => withName name padding data

/-- The name of a member that is not a table. -/
def Content.name : Content → Option Text
  | .symbols _ _ | .longNames _ | .namedSymbols _ _ _ => none
  | .short name _ | .long name _ _ | .named name _ _ | .plain name _ => some name

/-- The table of long names after a member. -/
def Content.tableAfter (longNames : Bytes) : Content → Bytes
  | .longNames table => table
  | _ => longNames

structure Member where
  content : Content
  /-- Date, owner, group and mode. -/
  stamp : Bytes
  /-- The byte after data of odd length. -/
  fill : UInt8

def Member.bytes (m : Member) : Bytes :=
  padded 16 (utf8 m.content.headerName) ++ m.stamp ++ padded 10 (utf8 (decimal m.content.data.length)) ++ [0x60, 0x0A] ++
    m.content.data ++ if m.content.data.length % 2 = 1 then [m.fill] else []

def archive (members : List Member) : Bytes := MAGIC ++ members.flatMap Member.bytes

/-- A name of a member. -/
structure NameOk (name : Text) : Prop where
  nonempty : name ≠ []
  noSlash : '/' ∉ name
  noNewline : '\n' ∉ name
  noNul : '\x00' ∉ name
  noSpace : ∀ c, name.getLast? = some c → isWhitespace c = false
  noTable : ¬ SYMDEF <+: name

/-- A name in the table of long names, ended as `ar` does or as COFF does. -/
def InTable (longNames : Bytes) (index : Nat) (name : Text) : Prop :=
  ∃ before after, before.length = index ∧
    (longNames = before ++ utf8 name ++ [0x2F, 0x0A] ++ after ∨ longNames = before ++ utf8 name ++ [0] ++ after)

def Content.Fits (longNames : Bytes) : Content → Prop
  | .symbols table _ => table ∈ SYMBOL_TABLES
  | .longNames _ => True
  | .short name _ | .named name _ _ | .plain name _ => NameOk name
  | .long name index _ => NameOk name ∧ InTable longNames index name
  | .namedSymbols name _ _ => SYMDEF <+: name

structure Member.Fits (longNames : Bytes) (m : Member) : Prop where
  content : m.content.Fits longNames
  headerName : (utf8 m.content.headerName).length ≤ 16
  size : m.content.data.length < 10 ^ 10
  stamp : m.stamp.length = 32

/-- Each member fits, with the table of long names before it. -/
def Fits : Bytes → List Member → Prop
  | _, [] => True
  | longNames, m :: members => m.Fits longNames ∧ Fits (m.content.tableAfter longNames) members

/-- The short name whose header is that of a BSD name. -/
def Content.Ambiguous (content : Content) : Prop := ∃ data, content = .short "#1".toList data

/-! ## Fields -/

theorem rdropWhile_append {α : Type} {p : α → Bool} {a b : List α} (hb : ∀ c ∈ b, p c = true)
    (ha : ∀ c, a.getLast? = some c → p c = false) : (a ++ b).rdropWhile p = a := by
  induction b using List.reverseRecOn with
  | nil =>
    rw [List.append_nil, List.rdropWhile_eq_self_iff]
    intro hne
    simp [ha _ (List.getLast?_eq_some_getLast hne)]
  | append_singleton b c ih =>
    rw [← List.append_assoc, List.rdropWhile_concat_pos _ _ _ (hb c (by simp))]
    exact ih fun d hd => hb d (List.mem_append_left _ hd)

/-- What is cut off does not reach into a part that ends otherwise. -/
theorem prefix_rdropWhile {α : Type} {p : α → Bool} {a : List α} (ha : ∀ c, a.getLast? = some c → p c = false)
    (b : List α) : a <+: (a ++ b).rdropWhile p := by
  induction b using List.reverseRecOn with
  | nil => rw [rdropWhile_append (b := []) (by simp) ha]
  | append_singleton b c ih =>
    rw [← List.append_assoc, List.rdropWhile_concat]
    split
    · exact ih
    · exact ⟨b ++ [c], by simp⟩

theorem foldlM_decimal {n : Nat} (hn : n < 2 ^ 64) : (decimal n).foldlM pushDecimal 0 = some n := by
  refine Escapes.foldlM_toDigits_of_push (by decide) (fun d hd m hm => ?_) hn
  have hall : ∀ d < 10, d.digitChar.isDigit = true ∧ d.digitChar.toNat - '0'.toNat = d := by decide
  obtain ⟨hisDigit, hval⟩ := hall d hd
  rw [pushDecimal, hval]
  exact if_pos ⟨hisDigit, hm⟩

theorem isDigit_of_mem_decimal {c : Char} {n : Nat} (h : c ∈ decimal n) : c.isDigit = true :=
  Nat.isDigit_of_mem_toDigits (by decide) (by decide) h

theorem decimal_ne_nil (n : Nat) : decimal n ≠ [] := by
  unfold decimal
  rw [Nat.toDigits_eq_if (by decide)]
  split <;> simp

theorem parseUsize_decimal {n : Nat} (hn : n < 2 ^ 64) : parseUsize (decimal n) = some n := by
  have hfold := foldlM_decimal hn
  obtain ⟨c, digits, hdigits⟩ := List.exists_cons_of_ne_nil (decimal_ne_nil n)
  have hplus : c ≠ '+' := by
    intro heq
    have hdigit := isDigit_of_mem_decimal (hdigits ▸ List.mem_cons_self : c ∈ decimal n)
    rw [heq] at hdigit
    exact absurd hdigit (by decide)
  rw [hdigits] at hfold ⊢
  unfold parseUsize
  split
  · next heq => cases heq
  · next heq => exact absurd (List.cons.inj heq).1 hplus
  · next heq => exact absurd (List.cons.inj heq).1 hplus
  · exact hfold

theorem not_whitespace_of_isDigit {c : Char} (h : c.isDigit = true) : isWhitespace c = false := by
  rw [Char.isDigit_iff_toNat] at h
  have hlow : '0'.toNat = 48 := rfl
  have hhigh : '9'.toNat = 57 := rfl
  simp only [isWhitespace, List.mem_cons, List.not_mem_nil, or_false, decide_eq_false_iff_not]
  omega

/-! ## Reading a member -/

theorem slice_append (a b c : Bytes) {n : Nat} (hn : a.length + b.length = n) :
    slice (a ++ b ++ c) a.length n = .ok b := by
  subst hn
  unfold slice
  rw [if_pos (by simp), List.append_assoc, List.drop_left, Nat.add_sub_cancel_left, List.take_left]
  rfl

theorem fromUtf8_utf8 (text : Text) : fromUtf8 (utf8 text) = some text := by
  have hbytes : (⟨(utf8 text).toArray⟩ : ByteArray) = text.utf8Encode := by
    apply ByteArray.ext
    simp [List.utf8Encode, utf8]
  have hvalid : text.utf8Encode.IsValidUTF8 := ByteArray.isValidUTF8_utf8Encode
  rw [fromUtf8, hbytes, String.fromUTF8?, dif_pos hvalid]
  exact congrArg some (String.toList_ofList)

@[simp] theorem utf8_nil : utf8 [] = [] := rfl

theorem utf8_spaces (n : Nat) : utf8 (List.replicate n ' ') = List.replicate n 0x20 := by
  induction n with
  | zero => rfl
  | succ n ih =>
    rw [List.replicate_succ, List.replicate_succ, ← ih]
    rfl

theorem utf8_nuls (n : Nat) : utf8 (List.replicate n '\x00') = List.replicate n 0 := by
  induction n with
  | zero => rfl
  | succ n ih =>
    rw [List.replicate_succ, List.replicate_succ, ← ih]
    rfl

theorem length_padded {width : Nat} {bytes : Bytes} (h : bytes.length ≤ width) : (padded width bytes).length = width := by
  rw [padded, List.length_append, List.length_replicate]
  omega

theorem fromUtf8_padded (width : Nat) (text : Text) :
    fromUtf8 (padded width (utf8 text)) = some (text ++ List.replicate (width - (utf8 text).length) ' ') := by
  rw [padded, ← utf8_spaces, ← utf8_append, fromUtf8_utf8]

/-- A field of a header, without the spaces behind it. -/
theorem trimEnd_padded {text : Text} (h : ∀ c, text.getLast? = some c → isWhitespace c = false) (n : Nat) :
    trimEnd (text ++ List.replicate n ' ') = text := by
  refine rdropWhile_append (fun c hc => ?_) h
  rw [List.eq_of_mem_replicate hc]
  rfl

theorem trim_decimal (size n : Nat) : trim (decimal size ++ List.replicate n ' ') = decimal size := by
  have hall : ∀ d ∈ decimal size, isWhitespace d = false :=
    fun d hd => not_whitespace_of_isDigit (isDigit_of_mem_decimal hd)
  have hstart : trimStart (decimal size ++ List.replicate n ' ') = decimal size ++ List.replicate n ' ' := by
    refine trimStart_of_head fun d hd => hall d ?_
    rw [List.head?_append_of_ne_nil _ (decimal_ne_nil size)] at hd
    exact List.mem_of_mem_head? hd
  rw [trim, hstart, trimEnd_padded fun d hd => hall d (List.mem_of_getLast? hd)]

theorem length_utf8_decimal (n : Nat) : (utf8 (decimal n)).length = (decimal n).length := by
  have hone : ∀ text : Text, (∀ c ∈ text, c.isDigit = true) → utf8Len text = text.length := by
    intro text h
    induction text with
    | nil => rfl
    | cons c text ih =>
      obtain ⟨hc, htext⟩ := List.forall_mem_cons.1 h
      have hsize : c.utf8Size = 1 := by
        rw [Char.utf8Size_eq_one_iff, UInt32.le_iff_toNat_le]
        exact (Char.isDigit_iff_toNat.1 hc).2.trans (by decide)
      have hrest : (text.map Char.utf8Size).sum = text.length := ih htext
      rw [utf8Len, List.map_cons, List.sum_cons, hsize, hrest, List.length_cons, Nat.add_comm]
  rw [length_utf8, hone _ fun _ => isDigit_of_mem_decimal]

theorem length_decimal {n width : Nat} (h : n < 10 ^ width) (hw : 0 < width) : (decimal n).length ≤ width :=
  (Nat.length_toDigits_le_iff (by decide) hw).2 h

/-- The sixty bytes before the data. -/
def Member.header (m : Member) : Bytes :=
  padded 16 (utf8 m.content.headerName) ++ m.stamp ++ padded 10 (utf8 (decimal m.content.data.length)) ++ [0x60, 0x0A]

variable {longNames : Bytes} {m : Member}

theorem Member.Fits.length_size (h : m.Fits longNames) : (utf8 (decimal m.content.data.length)).length ≤ 10 := by
  rw [length_utf8_decimal]
  exact length_decimal h.size (by decide)

theorem Member.Fits.length_header (h : m.Fits longNames) : m.header.length = HEADER := by
  simp [Member.header, length_padded h.headerName, length_padded h.length_size, h.stamp, HEADER]

/-- No header ends in a blank. -/
theorem Content.Fits.last {content : Content} (h : content.Fits longNames) :
    ∀ c, content.headerName.getLast? = some c → isWhitespace c = false := by
  have hdecimal : ∀ (text : Text) (n : Nat) c, (text ++ decimal n).getLast? = some c → isWhitespace c = false := by
    intro text n c hc
    rw [List.getLast?_append_of_ne_nil _ (decimal_ne_nil n)] at hc
    exact not_whitespace_of_isDigit (isDigit_of_mem_decimal (List.mem_of_getLast? hc))
  intro c hc
  cases content with
  | symbols table data =>
    have hall : ∀ table ∈ SYMBOL_TABLES, ∀ c, table.getLast? = some c → isWhitespace c = false := by
      simp [SYMBOL_TABLES, isWhitespace]
    exact hall table h c hc
  | longNames table =>
    obtain rfl : c = '/' := by simpa [headerName] using hc.symm
    rfl
  | short name data =>
    obtain rfl : c = '/' := by simpa [headerName] using hc.symm
    rfl
  | long name index data => exact hdecimal ['/'] index c hc
  | namedSymbols name padding data => exact hdecimal "#1/".toList _ c hc
  | named name padding data => exact hdecimal "#1/".toList _ c hc
  | plain name data => exact h.noSpace c hc

theorem readHeader_member (h : m.Fits longNames) (before after : Bytes) :
    readHeader (before ++ m.bytes ++ after) before.length = .ok (m.content.headerName, m.content.data.length) := by
  have hbytes : before ++ m.bytes ++ after = before ++ m.header ++
      (m.content.data ++ (if m.content.data.length % 2 = 1 then [m.fill] else []) ++ after) := by
    simp [Member.bytes, Member.header]
  have hheader := slice_append before m.header
    (m.content.data ++ (if m.content.data.length % 2 = 1 then [m.fill] else []) ++ after) (congrArg _ h.length_header)
  have hname := length_padded h.headerName
  have hsize := length_padded h.length_size
  have hterminator : slice m.header 58 60 = .ok [0x60, 0x0A] := by
    have hat := slice_append (padded 16 (utf8 m.content.headerName) ++ m.stamp ++
      padded 10 (utf8 (decimal m.content.data.length))) [0x60, 0x0A] [] (n := 60) (by simp [hname, hsize, h.stamp])
    simpa [hname, hsize, h.stamp, Member.header] using hat
  have hnameField : slice m.header 0 16 = .ok (padded 16 (utf8 m.content.headerName)) := by
    have hat := slice_append [] (padded 16 (utf8 m.content.headerName))
      (m.stamp ++ padded 10 (utf8 (decimal m.content.data.length)) ++ [0x60, 0x0A]) (n := 16) (by simp [hname])
    simpa [Member.header] using hat
  have hsizeField : slice m.header 48 58 = .ok (padded 10 (utf8 (decimal m.content.data.length))) := by
    have hat := slice_append (padded 16 (utf8 m.content.headerName) ++ m.stamp)
      (padded 10 (utf8 (decimal m.content.data.length))) [0x60, 0x0A] (n := 58) (by simp [hname, hsize, h.stamp])
    simpa [hname, h.stamp, Member.header] using hat
  have hparse : parseUsize (decimal m.content.data.length) = some m.content.data.length :=
    parseUsize_decimal (by have := h.size; omega)
  rw [hbytes]
  simp only [readHeader, hheader, hterminator, hnameField, hsizeField, fromUtf8_padded, trim_decimal, hparse, okOr,
    Option.elim, bind, Except.bind, pure, Except.pure, refuseIf, ne_eq, not_true_eq_false, if_false,
    trimEnd_padded h.content.last]

/-! ## Names -/

theorem lossy_utf8 (text : Text) : Utf8.lossy (utf8 text) = text := Utf8.lossy_encode text

theorem trimEndMatches_append {c : Char} {name : Text} (h : c ∉ name) (n : Nat) :
    trimEndMatches c (name ++ List.replicate n c) = name := by
  refine rdropWhile_append (fun d hd => ?_) fun d hd => ?_
  · rw [List.eq_of_mem_replicate hd]
    exact beq_self_eq_true c
  · exact beq_eq_false_iff_ne.2 fun heq => h (heq ▸ List.mem_of_getLast? hd)

theorem not_symbolTable {name : Text} (h : NameOk name) : name ∉ SYMBOL_TABLES ∧ name ++ ['/'] ∉ SYMBOL_TABLES := by
  have hall : ∀ table ∈ SYMBOL_TABLES, ('/' ∈ table ∧ (table = ['/'] ∨ '/' ∈ table.dropLast)) ∨
      (SYMDEF <+: table ∧ '/' ∉ table) := by decide +kernel
  constructor
  · intro hmem
    rcases hall name hmem with ⟨hslash, -⟩ | ⟨htable, -⟩
    · exact h.noSlash hslash
    · exact h.noTable htable
  · intro hmem
    rcases hall _ hmem with ⟨-, heq | hslash⟩ | ⟨-, hnone⟩
    · exact h.nonempty (by simpa using heq)
    · exact h.noSlash (by simpa using hslash)
    · exact hnone (by simp)

/-- A name without a slash does not start as the other headers do. -/
theorem stripPrefix?_name {name : Text} (h : NameOk name) :
    stripPrefix? "#1/".toList name = none ∧ stripPrefix? "/".toList name = none ∧
      (name ≠ "#1".toList → stripPrefix? "#1/".toList (name ++ ['/']) = none) ∧
      stripPrefix? "/".toList (name ++ ['/']) = none := by
  simp only [stripPrefix?_eq_none]
  refine ⟨fun hpre => h.noSlash (hpre.subset (by decide)), fun hpre => h.noSlash (hpre.subset (by decide)),
    fun hne hpre => ?_, fun hpre => ?_⟩
  · obtain ⟨rest, hrest⟩ := hpre
    have hcut : "#1".toList ++ '/' :: rest = name ++ ['/'] := hrest
    obtain ⟨more, hname, hmore⟩ | ⟨more, hname, hmore⟩ := List.append_eq_append_iff.1 hcut
    · cases more with
      | nil => exact hne (by simpa using hname)
      | cons c more =>
        obtain rfl : '/' = c := (List.cons.inj hmore).1
        exact h.noSlash (by simp [hname])
    · cases more with
      | nil => exact hne (by simpa using hname.symm)
      | cons c more => simp at hmore
  · obtain ⟨rest, hrest⟩ := hpre
    cases hname : name with
    | nil => exact h.nonempty hname
    | cons c more =>
      rw [hname] at hrest
      obtain rfl : '/' = c := (List.cons.inj hrest).1
      exact h.noSlash (hname ▸ List.mem_cons_self)

theorem utf8_slash : utf8 ['/'] = [0x2F] := by decide

/-- The first end in what follows an index is the one of its entry. -/
theorem findIdx?_entry {name : Text} (h : NameOk name) (slashes : Bytes) (hslashes : ∀ b ∈ slashes, b = 0x2F) {stop : UInt8}
    (hstop : stop = 0x0A ∨ stop = 0) (after : Bytes) :
    (utf8 name ++ slashes ++ stop :: after).findIdx? (fun b => b == 0x0A || b == 0) =
      some (utf8 name ++ slashes).length := by
  have hclear : ∀ b ∈ utf8 name ++ slashes, (b == 0x0A || b == 0) = false := by
    intro b hb
    rw [Bool.or_eq_false_iff, beq_eq_false_iff_ne, beq_eq_false_iff_ne]
    rcases List.mem_append.1 hb with hname | hslash
    · exact ⟨fun heq => Utf8.not_mem_encode (c := '\n') rfl (by decide) h.noNewline (heq ▸ hname),
        fun heq => Utf8.not_mem_encode (c := '\x00') rfl (by decide) h.noNul (heq ▸ hname)⟩
    · rw [hslashes b hslash]
      decide
  rw [List.findIdx?_append, List.findIdx?_eq_none_iff.2 hclear, List.findIdx?_cons, if_pos (by obtain rfl | rfl := hstop <;> rfl)]
  simp

theorem readName_symbols {table : Text} (h : table ∈ SYMBOL_TABLES) (data : Bytes) :
    readName longNames data table = .ok none := by
  rw [readName, if_pos h]
  rfl

theorem readName_plain {name : Text} (h : NameOk name) (data : Bytes) : readName longNames data name = .ok (some name) := by
  obtain ⟨hbsd, hlong, -⟩ := stripPrefix?_name h
  have htrim : trimEndMatches '/' name = name := by simpa using trimEndMatches_append h.noSlash 0
  simp only [readName, if_neg (not_symbolTable h).1, hbsd, hlong, htrim]
  rfl

theorem readName_short {name : Text} (h : NameOk name) (hne : name ≠ "#1".toList) (data : Bytes) :
    readName longNames data (name ++ ['/']) = .ok (some name) := by
  obtain ⟨-, -, hbsd, hlong⟩ := stripPrefix?_name h
  have htrim : trimEndMatches '/' (name ++ ['/']) = name := trimEndMatches_append h.noSlash 1
  simp only [readName, if_neg (not_symbolTable h).2, hbsd hne, hlong, htrim]
  rfl

theorem readName_ambiguous (data : Bytes) :
    readName longNames data ("#1".toList ++ ['/']) = .error (.failed "BSD name length") := by
  have htable : "#1".toList ++ ['/'] ∉ SYMBOL_TABLES := by decide
  have hstrip : stripPrefix? "#1/".toList ("#1".toList ++ ['/']) = some [] := by decide
  simp only [readName, if_neg htable, hstrip]
  rfl

theorem readName_bsd (name : Text) (padding : Nat) (data : Bytes)
    (hlen : (utf8 name).length + padding < 2 ^ 64) :
    readName longNames (withName name padding data) ("#1/".toList ++ decimal ((utf8 name).length + padding)) =
      .ok (if SYMDEF <+: trimEndMatches '\x00' (name ++ List.replicate padding '\x00') then none
        else some (trimEndMatches '\x00' (name ++ List.replicate padding '\x00'))) := by
  have htable : "#1/".toList ++ decimal ((utf8 name).length + padding) ∉ SYMBOL_TABLES := by
    simp [SYMBOL_TABLES]
  have htake : (withName name padding data).take ((utf8 name).length + padding) =
      utf8 (name ++ List.replicate padding '\x00') := by
    rw [utf8_append, utf8_nuls, withName, List.take_left' (by simp)]
  have hbound : ¬ (withName name padding data).length < (utf8 name).length + padding := by
    simp only [withName, List.length_append, List.length_replicate]
    omega
  simp only [readName, if_neg htable, stripPrefix?_append, parseUsize_decimal hlen, okOr, Option.elim, bind, Except.bind, pure,
    Except.pure, refuseIf, if_neg hbound, htake, lossy_utf8]

theorem readName_long {name : Text} (h : NameOk name) {index : Nat} (hindex : index < 2 ^ 64) (htable : InTable longNames index name)
    (data : Bytes) : readName longNames data ('/' :: decimal index) = .ok (some name) := by
  obtain ⟨c, digits, hdigits⟩ := List.exists_cons_of_ne_nil (decimal_ne_nil index)
  have hnot : '/' :: decimal index ∉ SYMBOL_TABLES := by
    have hdigit : c.isDigit = true := isDigit_of_mem_decimal (hdigits ▸ List.mem_cons_self : c ∈ decimal index)
    have hletter : c ≠ 'S' := fun heq => absurd (heq ▸ hdigit) (by decide)
    simp [SYMBOL_TABLES, hdigits, hletter]
  have hbsd : stripPrefix? "#1/".toList ('/' :: decimal index) = none := by
    simp [stripPrefix?_eq_none]
  have hstrip : stripPrefix? "/".toList ('/' :: decimal index) = some (decimal index) := stripPrefix?_append "/".toList _
  obtain ⟨before, after, rfl, hentry⟩ := htable
  obtain ⟨slashes, stop, hslashes, hstop, hentry⟩ : ∃ (slashes : Text) (stop : UInt8), (slashes = [] ∨ slashes = ['/']) ∧
      (stop = 0x0A ∨ stop = 0) ∧ longNames = before ++ (utf8 name ++ utf8 slashes ++ stop :: after) := by
    obtain rfl | rfl := hentry
    · exact ⟨['/'], 0x0A, .inr rfl, .inl rfl, by simp [utf8_slash]⟩
    · exact ⟨[], 0, .inl rfl, .inr rfl, by simp⟩
  have hfind := findIdx?_entry h (utf8 slashes) (by obtain rfl | rfl := hslashes <;> simp [utf8_slash, utf8_nil]) hstop after
  have hbound : ¬ longNames.length < before.length := by simp [hentry]
  have hslice : slice (utf8 name ++ utf8 slashes ++ stop :: after) 0 (utf8 name ++ utf8 slashes).length =
      .ok (utf8 (name ++ slashes)) := by
    rw [utf8_append]
    exact slice_append [] (utf8 name ++ utf8 slashes) (stop :: after) (by simp)
  have htrim : trimEndMatches '/' (name ++ slashes) = name := by
    obtain rfl | rfl := hslashes
    · exact trimEndMatches_append h.noSlash 0
    · exact trimEndMatches_append h.noSlash 1
  simp only [readName, if_neg hnot, hbsd, hstrip, parseUsize_decimal hindex, okOr, Option.elim, bind, Except.bind, pure, Except.pure,
    refuseIf, if_neg hbound]
  rw [hentry, List.drop_left, hfind, Option.getD_some, hslice]
  simp only [lossy_utf8, htrim]

/-! ## The loop -/

theorem readMember_eq (h : m.Fits longNames) (before after : Bytes) :
    readMember (before ++ m.bytes ++ after) longNames before.length =
      if m.content.headerName = "//".toList then .ok ⟨none, m.content.data, (before ++ m.bytes).length⟩
      else (readName longNames m.content.data m.content.headerName).map
        (⟨·, longNames, (before ++ m.bytes).length⟩) := by
  have hheader := h.length_header
  have hlength : (before ++ m.bytes).length = before.length + HEADER + m.content.data.length + m.content.data.length % 2 := by
    have hfill : (if m.content.data.length % 2 = 1 then [m.fill] else []).length = m.content.data.length % 2 := by
      split
      · next hodd => rw [hodd]; rfl
      · rw [List.length_nil]; omega
    have hbytes : m.bytes = m.header ++ m.content.data ++ (if m.content.data.length % 2 = 1 then [m.fill] else []) := rfl
    rw [hbytes, List.length_append, List.length_append, List.length_append, hheader, hfill]
    omega
  have hdata : slice (before ++ m.bytes ++ after) (before.length + HEADER) (before.length + HEADER + m.content.data.length) =
      .ok m.content.data := by
    have hat := slice_append (before ++ m.header) m.content.data
      ((if m.content.data.length % 2 = 1 then [m.fill] else []) ++ after) rfl
    rw [List.length_append, hheader] at hat
    simpa [Member.bytes, Member.header] using hat
  have hbound : ¬ (before ++ m.bytes ++ after).length < before.length + HEADER + m.content.data.length := by
    rw [List.length_append, hlength]
    omega
  simp only [readMember, readHeader_member h before after, bind, Except.bind, pure, Except.pure, refuseIf, if_neg hbound, hdata]
  rw [hlength]
  split
  · rfl
  · cases readName longNames m.content.data m.content.headerName <;> rfl

/-- An index that there is room for after the slash. -/
theorem index_lt_of_length_le {index : Nat} (h : (utf8 ('/' :: decimal index)).length ≤ 16) : index < 10 ^ 15 := by
  have hlength : (decimal index).length + 1 ≤ 16 := by
    rwa [← List.singleton_append, utf8_append, utf8_slash, List.length_append, List.length_singleton, Nat.add_comm,
      length_utf8_decimal] at h
  exact (Nat.length_toDigits_le_iff (by decide) (by decide)).1 (Nat.le_of_succ_le_succ hlength)

theorem readMember_ok (h : m.Fits longNames) (hm : ¬ m.content.Ambiguous) (before after : Bytes) :
    readMember (before ++ m.bytes ++ after) longNames before.length =
      .ok ⟨m.content.name, m.content.tableAfter longNames, (before ++ m.bytes).length⟩ := by
  rw [readMember_eq h before after]
  have hcontent := h.content
  have hheader := h.headerName
  have hsize := h.size
  generalize (before ++ m.bytes).length = next
  have hbsd : ∀ digits : Text, "#1/".toList ++ digits ≠ "//".toList := by simp
  cases hc : m.content with
  | symbols table data =>
    rw [hc] at hcontent
    have hne : table ≠ "//".toList := by
      have hall : ∀ table ∈ SYMBOL_TABLES, table ≠ "//".toList := by decide
      exact hall table hcontent
    rw [if_neg (by exact hne), Content.headerName, readName_symbols hcontent]
    rfl
  | longNames table => rfl
  | short name data =>
    rw [hc] at hcontent
    have hne : name ++ ['/'] ≠ "//".toList := fun heq => hcontent.noSlash (by
      obtain rfl : name = ['/'] := List.append_cancel_right heq
      exact List.mem_cons_self)
    have hother : name ≠ "#1".toList := fun heq => hm ⟨data, by rw [hc, heq]⟩
    rw [if_neg (by exact hne), Content.headerName, readName_short hcontent hother]
    rfl
  | long name index data =>
    rw [hc] at hcontent hheader
    obtain ⟨c, digits, hdigits⟩ := List.exists_cons_of_ne_nil (decimal_ne_nil index)
    have hslash : c ≠ '/' := fun heq =>
      absurd (isDigit_of_mem_decimal (heq ▸ hdigits ▸ List.mem_cons_self : '/' ∈ decimal index)) (by decide)
    have hne : '/' :: decimal index ≠ "//".toList := by simp [hdigits, hslash]
    have hindex : index < 10 ^ 15 := index_lt_of_length_le hheader
    rw [if_neg (by exact hne), Content.headerName, readName_long hcontent.1 (by omega) hcontent.2]
    rfl
  | namedSymbols name padding data =>
    rw [hc] at hcontent hsize
    have hlen : (utf8 name).length + padding < 2 ^ 64 := by
      simp only [Content.data, withName, List.length_append, List.length_replicate] at hsize
      omega
    have htable : SYMDEF <+: trimEndMatches '\x00' (name ++ List.replicate padding '\x00') := by
      have hlast : ∀ c, SYMDEF.getLast? = some c → (c == '\x00') = false := by
        intro c hc
        obtain rfl : 'F' = c := Option.some.inj hc
        rfl
      obtain ⟨more, rfl⟩ := hcontent
      have hkept := prefix_rdropWhile hlast (more ++ List.replicate padding '\x00')
      rwa [← List.append_assoc] at hkept
    rw [if_neg (by exact hbsd _), Content.headerName, Content.data, readName_bsd name padding data hlen, if_pos htable]
    rfl
  | named name padding data =>
    rw [hc] at hcontent hsize
    have hlen : (utf8 name).length + padding < 2 ^ 64 := by
      simp only [Content.data, withName, List.length_append, List.length_replicate] at hsize
      omega
    have hname : trimEndMatches '\x00' (name ++ List.replicate padding '\x00') = name :=
      trimEndMatches_append hcontent.noNul padding
    rw [if_neg (by exact hbsd _), Content.headerName, Content.data, readName_bsd name padding data hlen, hname,
      if_neg hcontent.noTable]
    rfl
  | plain name data =>
    rw [hc] at hcontent
    have hne : name ≠ "//".toList := fun heq => hcontent.noSlash (by rw [heq]; decide)
    rw [if_neg (by exact hne), Content.headerName, readName_plain hcontent]
    rfl

theorem readMember_ambiguous (h : m.Fits longNames) (hm : m.content.Ambiguous) (before after : Bytes) :
    readMember (before ++ m.bytes ++ after) longNames before.length = .error (.failed "BSD name length") := by
  obtain ⟨data, hc⟩ := hm
  have hne : "#1".toList ++ ['/'] ≠ "//".toList := by decide
  rw [readMember_eq h before after, hc, if_neg (by exact hne), Content.headerName, readName_ambiguous]
  rfl

theorem namesFrom_ok {bytes : Bytes} {offset : Nat} {names : List Text} {r : Round} (hlt : offset + HEADER ≤ bytes.length)
    (h : readMember bytes longNames offset = .ok r) :
    namesFrom bytes longNames offset names = namesFrom bytes r.longNames r.next (names ++ r.name.toList) := by
  rw [namesFrom, if_pos hlt]
  split
  · next heq => rw [h] at heq; cases heq
  · next heq => rw [h] at heq; cases heq; rfl

theorem namesFrom_error {bytes : Bytes} {offset : Nat} {names : List Text} {e : ArchiveError}
    (hlt : offset + HEADER ≤ bytes.length) (h : readMember bytes longNames offset = .error e) :
    namesFrom bytes longNames offset names = .error e := by
  rw [namesFrom, if_pos hlt]
  split
  · next heq => rw [h] at heq; cases heq; rfl
  · next heq => rw [h] at heq; cases heq

theorem Member.Fits.length_le (h : m.Fits longNames) (before after : Bytes) :
    before.length + HEADER ≤ (before ++ m.bytes ++ after).length := by
  have hlength : m.header.length ≤ m.bytes.length := by
    have hbytes : m.bytes = m.header ++ (m.content.data ++ (if m.content.data.length % 2 = 1 then [m.fill] else [])) := by
      simp [Member.bytes, Member.header]
    rw [hbytes, List.length_append]
    omega
  rw [h.length_header] at hlength
  simp only [List.length_append]
  omega

/-- The names so far, and those of the members that are left. -/
theorem namesFrom_members : ∀ {members : List Member} {longNames : Bytes}, Fits longNames members →
    (∀ m ∈ members, ¬ m.content.Ambiguous) → ∀ (before : Bytes) (names : List Text),
      namesFrom (before ++ members.flatMap Member.bytes) longNames before.length names =
        .ok (names ++ members.filterMap fun m => m.content.name)
  | [], longNames, _, _, before, names => by
    rw [namesFrom, if_neg (by simp [HEADER])]
    simp
  | m :: members, longNames, h, hall, before, names => by
    obtain ⟨hm, hmembers⟩ := List.forall_mem_cons.1 hall
    have hread := readMember_ok h.1 hm before (members.flatMap Member.bytes)
    have ih := namesFrom_members h.2 hmembers (before ++ m.bytes) (names ++ m.content.name.toList)
    rw [List.flatMap_cons, ← List.append_assoc, namesFrom_ok (h.1.length_le _ _) hread, ih, List.append_assoc]
    congr 2
    rw [List.filterMap_cons]
    cases m.content.name <;> rfl

theorem namesFrom_ambiguous : ∀ {members : List Member} {longNames : Bytes}, Fits longNames members →
    (∃ m ∈ members, m.content.Ambiguous) → ∀ (before : Bytes) (names : List Text),
      namesFrom (before ++ members.flatMap Member.bytes) longNames before.length names =
        .error (.failed "BSD name length")
  | m :: members, longNames, h, hsome, before, names => by
    rw [List.flatMap_cons, ← List.append_assoc]
    by_cases hm : m.content.Ambiguous
    · exact namesFrom_error (h.1.length_le _ _) (readMember_ambiguous h.1 hm before _)
    · obtain ⟨other, hother, hambiguous⟩ := hsome
      have hrest : other ∈ members := (List.mem_cons.1 hother).resolve_left fun heq => hm (heq ▸ hambiguous)
      rw [namesFrom_ok (h.1.length_le _ _) (readMember_ok h.1 hm before _)]
      exact namesFrom_ambiguous h.2 ⟨other, hrest, hambiguous⟩ (before ++ m.bytes) _

theorem memberNames_archive (members : List Member) :
    memberNames (archive members) = namesFrom (MAGIC ++ members.flatMap Member.bytes) [] MAGIC.length [] := by
  have hmagic : MAGIC <+: archive members := List.prefix_append _ _
  rw [memberNames, if_pos hmagic, archive]

/-! ## No index is out of range -/

/-- It may fail, but not for an index. -/
def Safe {α : Type} (x : Except ArchiveError α) : Prop := x ≠ .error .panicked

theorem safe_pure {α : Type} (a : α) : Safe (pure a : Except ArchiveError α) := by simp [Safe, pure, Except.pure]

theorem Safe.bind {α β : Type} {x : Except ArchiveError α} {f : α → Except ArchiveError β} (hx : Safe x)
    (hf : ∀ a, x = .ok a → Safe (f a)) : Safe (x >>= f) := by
  cases x with
  | error e => exact fun heq => hx (congrArg Except.error (Except.error.inj heq))
  | ok a => exact hf a rfl

theorem safe_refuseIf (p : Prop) [Decidable p] (message : String) :
    Safe (refuseIf p (.failed message) : Except ArchiveError Unit) := by
  unfold refuseIf
  split <;> simp [Safe, throw, throwThe, MonadExceptOf.throw, pure, Except.pure]

theorem safe_okOr {α : Type} (value : Option α) {e : ArchiveError} (he : e ≠ .panicked) : Safe (okOr value e) := by
  cases value with
  | none => exact fun heq => he (Except.error.inj heq)
  | some a => exact safe_pure a

theorem safe_slice {bytes : Bytes} {start stop : Nat} (h : start ≤ stop ∧ stop ≤ bytes.length) :
    Safe (slice bytes start stop) := by
  unfold slice
  rw [if_pos h]
  exact safe_pure _

theorem length_slice {bytes part : Bytes} {start stop : Nat} (h : slice bytes start stop = .ok part) :
    part.length = stop - start := by
  unfold slice at h
  split at h
  · next hrange =>
    obtain rfl := pure_eq_ok.1 h
    rw [List.length_take, List.length_drop]
    omega
  · cases h

theorem readHeader_safe {bytes : Bytes} {offset : Nat} (h : offset + HEADER ≤ bytes.length) :
    Safe (readHeader bytes offset) := by
  refine (safe_slice ⟨by omega, h⟩).bind fun header hheader => ?_
  have hlength : header.length = 60 := by
    rw [length_slice hheader, Nat.add_sub_cancel_left, HEADER]
  refine (safe_slice (by omega)).bind fun terminator _ => (safe_refuseIf _ _).bind fun _ _ => ?_
  refine (safe_slice (by omega)).bind fun name _ => (safe_okOr _ (by simp)).bind fun rawName _ => ?_
  refine (safe_slice (by omega)).bind fun size _ => (safe_okOr _ (by simp)).bind fun size _ => ?_
  exact (safe_okOr _ (by simp)).bind fun size _ => safe_pure _

theorem readName_safe (longNames data : Bytes) (rawName : Text) : Safe (readName longNames data rawName) := by
  unfold readName
  split
  · exact safe_pure _
  split
  · exact (safe_okOr _ (by simp)).bind fun length _ => (safe_refuseIf _ _).bind fun _ _ => safe_pure _
  split
  · refine (safe_okOr _ (by simp)).bind fun index _ => (safe_refuseIf _ _).bind fun _ _ => Safe.bind ?_ fun _ _ => safe_pure _
    refine safe_slice ⟨Nat.zero_le _, ?_⟩
    cases hfind : (longNames.drop index).findIdx? fun b => b == 0x0A || b == 0 with
    | none => exact le_refl _
    | some stop => exact (List.findIdx?_eq_some_iff_getElem.1 hfind).1.le
  · exact safe_pure _

theorem readMember_safe {bytes : Bytes} {offset : Nat} (h : offset + HEADER ≤ bytes.length) (longNames : Bytes) :
    Safe (readMember bytes longNames offset) := by
  refine (readHeader_safe h).bind fun header _ => ?_
  by_cases hbound : bytes.length < offset + HEADER + header.2
  · refine (safe_refuseIf _ _).bind fun _ hpassed => ?_
    exact absurd hbound (refuseIf_eq_ok.1 hpassed)
  refine (safe_refuseIf _ _).bind fun _ _ => (safe_slice (by omega)).bind fun data _ => ?_
  split
  · exact safe_pure _
  · exact (readName_safe _ _ _).bind fun _ _ => safe_pure _

theorem namesFrom_safe (bytes longNames : Bytes) (offset : Nat) (names : List Text) :
    Safe (namesFrom bytes longNames offset names) := by
  fun_induction namesFrom bytes longNames offset names with
  | case1 longNames offset names hlt e h =>
    have hsafe := readMember_safe hlt longNames
    rw [h] at hsafe
    exact fun heq => hsafe (congrArg Except.error (Except.error.inj heq))
  | case2 longNames offset names hlt r h ih => exact ih
  | case3 longNames offset names hlt => exact safe_pure _

theorem memberNames_safe (bytes : Bytes) : Safe (memberNames bytes) := by
  unfold memberNames
  split
  · exact namesFrom_safe _ _ _ _
  · simp [Safe]

/-! ## Exactly the members -/

/-- Every string of bytes is answered, with names or an error. The members of an
archive are listed exactly, tables left out, unless one has the short name that
its header makes a BSD name of. -/
theorem memberNames_archive_iff (bytes : Bytes) (members : List Member) (h : Fits [] members) :
    memberNames bytes ≠ .error .panicked ∧
      (memberNames (archive members) = .ok (members.filterMap fun m => m.content.name) ↔
        ∀ m ∈ members, ¬ m.content.Ambiguous) := by
  refine ⟨memberNames_safe bytes, fun hnames => ?_, fun hall => ?_⟩
  · by_contra hsome
    push Not at hsome
    have herror := namesFrom_ambiguous h hsome MAGIC []
    rw [← memberNames_archive, hnames] at herror
    cases herror
  · rw [memberNames_archive, namesFrom_members h hall MAGIC [], List.nil_append]

instance (name : Text) : Decidable (NameOk name) :=
  decidable_of_iff (name ≠ [] ∧ '/' ∉ name ∧ '\n' ∉ name ∧ '\x00' ∉ name ∧
      (name.getLast?.all fun c => !isWhitespace c) = true ∧ ¬ SYMDEF <+: name)
    ⟨fun h => ⟨h.1, h.2.1, h.2.2.1, h.2.2.2.1, by simpa [Option.all_eq_true] using h.2.2.2.2.1, h.2.2.2.2.2⟩,
      fun h => ⟨h.nonempty, h.noSlash, h.noNewline, h.noNul, by simpa [Option.all_eq_true] using h.noSpace, h.noTable⟩⟩

/-- A member of the epoch, of nobody. -/
def member (content : Content) : Member := ⟨content, List.replicate 32 0x20, 0x0A⟩

/-- GNU's tables, a long name and a short one, and a BSD table and name. -/
def exampleMembers : List Member :=
  [member (.symbols ['/'] [1, 2, 3]), member (.longNames (utf8 "a_very_long_member_name.rcgu.o/\n".toList)),
    member (.long "a_very_long_member_name.rcgu.o".toList 0 [4]), member (.short "v.o".toList []),
    member (.namedSymbols "__.SYMDEF SORTED".toList 4 []), member (.named "long_name.o".toList 1 [5, 6])]

theorem fits_exampleMembers : Fits [] exampleMembers := by
  have hlong : InTable (utf8 "a_very_long_member_name.rcgu.o/\n".toList) 0 "a_very_long_member_name.rcgu.o".toList :=
    ⟨[], [], rfl, .inl (by decide +kernel)⟩
  have hsymbols : ['/'] ∈ SYMBOL_TABLES := by decide
  have hlongName : NameOk "a_very_long_member_name.rcgu.o".toList := by decide +kernel
  have hshortName : NameOk "v.o".toList := by decide +kernel
  have hsymdef : SYMDEF <+: "__.SYMDEF SORTED".toList := by decide
  have hname : NameOk "long_name.o".toList := by decide +kernel
  refine ⟨⟨hsymbols, ?_, ?_, rfl⟩, ⟨trivial, ?_, ?_, rfl⟩, ⟨⟨hlongName, hlong⟩, ?_, ?_, rfl⟩, ⟨hshortName, ?_, ?_, rfl⟩,
    ⟨hsymdef, ?_, ?_, rfl⟩, ⟨hname, ?_, ?_, rfl⟩, trivial⟩
  all_goals decide +kernel

theorem memberNames_example : memberNames (archive exampleMembers) =
    .ok ["a_very_long_member_name.rcgu.o".toList, "v.o".toList, "long_name.o".toList] := by
  have hplain : ∀ m ∈ exampleMembers, ¬ m.content.Ambiguous := by
    simp [exampleMembers, member, Content.Ambiguous]
  exact (memberNames_archive_iff [] exampleMembers fits_exampleMembers).2.2 hplain

/-- A member named `#1`, in a GNU archive. -/
theorem memberNames_ambiguous : ¬ ∀ members, Fits [] members →
    memberNames (archive members) = .ok (members.filterMap fun m => m.content.name) := by
  intro h
  have hfits : Fits [] [member (.short "#1".toList [])] := by
    have hname : NameOk "#1".toList := by decide +kernel
    refine ⟨⟨hname, ?_, ?_, rfl⟩, trivial⟩
    all_goals decide +kernel
  have hnames := h _ hfits
  rw [memberNames_archive, namesFrom_ambiguous hfits ⟨_, List.mem_singleton_self _, [], rfl⟩ MAGIC []] at hnames
  cases hnames

end Bellows.Cli.Archive
