/-
UTF-8: a text is told by its bytes, and read back from them; what is no text is
read with replacement characters.
-/
import Bellows.Lib.Encoding

namespace Utf8

open Encoding

theorem delimited_encodeChar : Delimited String.utf8EncodeChar := by
  intro a b r s h
  have hdecode (c : Char) (rest : List UInt8) :
      ByteArray.utf8DecodeChar? (String.utf8EncodeChar c ++ rest).toByteArray 0 = some c := by
    rw [List.toByteArray_append]
    exact ByteArray.utf8DecodeChar?_utf8EncodeChar_append
  have hab : a = b := by
    have ha := hdecode a r
    rw [h, hdecode b s] at ha
    exact (Option.some.inj ha).symm
  subst hab
  exact ⟨rfl, List.append_cancel_left h⟩

theorem encode_injective : Function.Injective fun text : List Char => text.flatMap String.utf8EncodeChar :=
  delimited_encodeChar.flatMap_injective fun _ => String.utf8EncodeChar_ne_nil

/-- A byte below 128 is a character of its own. -/
theorem toNat_of_mem_encodeChar {c : Char} {b : UInt8} (h : b ∈ String.utf8EncodeChar c) (hb : b.toNat < 128) :
    c.toNat = b.toNat := by
  have hbyte : ∀ n : Nat, 128 ≤ n → n < 256 → b ≠ UInt8.ofNat n := by
    intro n hlow hhigh heq
    rw [heq, UInt8.toNat_ofNat_of_lt' (by simpa using hhigh)] at hb
    omega
  unfold String.utf8EncodeChar at h
  dsimp only at h
  split at h
  · next hascii =>
    rw [List.mem_singleton.1 h, UInt8.toNat_ofNat_of_lt' (Nat.lt_of_le_of_lt hascii (by decide))]
    rfl
  all_goals
    exfalso
    split at h
    · simp only [List.mem_cons, List.not_mem_nil, or_false] at h
      rcases h with h | h <;> exact hbyte _ (by omega) (by omega) h
    split at h
    · simp only [List.mem_cons, List.not_mem_nil, or_false] at h
      rcases h with h | h | h <;> exact hbyte _ (by omega) (by omega) h
    · simp only [List.mem_cons, List.not_mem_nil, or_false] at h
      rcases h with h | h | h | h <;> exact hbyte _ (by omega) (by omega) h

/-- A byte of ASCII is in the encoding only as the character. -/
theorem not_mem_encode {c : Char} {b : UInt8} {text : List Char} (hb : b.toNat = c.toNat) (hc : c.toNat < 128)
    (h : c ∉ text) : b ∉ text.flatMap String.utf8EncodeChar := by
  intro hmem
  obtain ⟨d, hd, hbyte⟩ := List.mem_flatMap.1 hmem
  have hchar := toNat_of_mem_encodeChar hbyte (by omega)
  exact h (Char.toNat_inj.1 (hchar.trans hb) ▸ hd)

/-! ## Where characters start -/

theorem encodeChar_cons (c : Char) : ∃ b more, String.utf8EncodeChar c = b :: more ∧ b.IsUTF8FirstByte := by
  obtain ⟨b, more, h⟩ := List.exists_cons_of_ne_nil (String.utf8EncodeChar_ne_nil (c := c))
  have hfirst := UInt8.isUTF8FirstByte_getElem_zero_utf8EncodeChar (c := c)
  simp only [h, List.getElem_cons_zero] at hfirst
  exact ⟨b, more, h, hfirst⟩

/-- Behind the first byte of a character no character starts. -/
theorem suffix_encodeChar {c : Char} {s : List UInt8} (hs : s <:+ String.utf8EncodeChar c) (hne : s ≠ []) :
    s = String.utf8EncodeChar c ∨ ∃ b more, s = b :: more ∧ ¬ b.IsUTF8FirstByte := by
  obtain ⟨before, h⟩ := hs
  obtain ⟨b, more, rfl⟩ := List.exists_cons_of_ne_nil hne
  by_cases hnil : before = []
  · exact .inl (by rw [← h, hnil, List.nil_append])
  · refine .inr ⟨b, more, rfl, fun hfirst => hnil (List.length_eq_zero_iff.1 ?_)⟩
    have hlt : before.length < (String.utf8EncodeChar c).length := by
      rw [← h, List.length_append, List.length_cons]
      omega
    have hiff : (String.utf8EncodeChar c)[before.length].IsUTF8FirstByte ↔ before.length = 0 :=
      UInt8.isUTF8FirstByte_getElem_utf8EncodeChar
    refine hiff.1 ?_
    have hget : (String.utf8EncodeChar c)[before.length] = b := by
      simp only [← h, List.getElem_append_right (Nat.le_refl _), Nat.sub_self, List.getElem_cons_zero]
    rw [hget]
    exact hfirst

/-- A text's bytes start as another's only if the text does. -/
theorem prefix_encode_iff {pat text : List Char} :
    pat.flatMap String.utf8EncodeChar <+: text.flatMap String.utf8EncodeChar ↔ pat <+: text := by
  constructor
  · intro h
    induction pat generalizing text with
    | nil => exact List.nil_prefix
    | cons c pat ih =>
      obtain ⟨rest, h⟩ := h
      cases text with
      | nil =>
        obtain ⟨b, more, hb, -⟩ := encodeChar_cons c
        simp [hb] at h
      | cons d text =>
        simp only [List.flatMap_cons, List.append_assoc] at h
        obtain ⟨rfl, hrest⟩ := delimited_encodeChar c d _ _ h
        exact List.cons_prefix_cons.2 ⟨rfl, ih ⟨rest, hrest⟩⟩
  · intro ⟨rest, h⟩
    exact ⟨rest.flatMap String.utf8EncodeChar, by rw [← h, List.flatMap_append]⟩

/-- Where a character's bytes go on, a text that is not there does not start. -/
theorem not_prefix_encode {pat text : List Char} {c : Char} (hpat : pat ≠ []) (h : ¬ pat <+: c :: text) :
    ∀ s, s <:+ String.utf8EncodeChar c → s ≠ [] →
      ¬ pat.flatMap String.utf8EncodeChar <+: s ++ text.flatMap String.utf8EncodeChar := by
  intro s hs hne hpre
  rcases suffix_encodeChar hs hne with rfl | ⟨b, more, rfl, hb⟩
  · exact h (prefix_encode_iff.1 (by simpa using hpre))
  · obtain ⟨d, pat, rfl⟩ := List.exists_cons_of_ne_nil hpat
    obtain ⟨b', more', hb', hfirst⟩ := encodeChar_cons d
    rw [List.flatMap_cons, hb', List.cons_append, List.cons_append, List.cons_prefix_cons] at hpre
    exact hb (hpre.1 ▸ hfirst)

/-- A text's bytes in another's are where the text is. -/
theorem exists_cut {pat : List Char} (hpat : pat ≠ []) : ∀ {text : List Char} {before after : List UInt8},
    text.flatMap String.utf8EncodeChar = before ++ (pat.flatMap String.utf8EncodeChar ++ after) →
      ∃ front rest, text = front ++ pat ++ rest ∧ before = front.flatMap String.utf8EncodeChar
  | [], before, after, h => by
    obtain ⟨d, pat, rfl⟩ := List.exists_cons_of_ne_nil hpat
    obtain ⟨b, more, hb, -⟩ := encodeChar_cons d
    simp [hb] at h
  | c :: text, [], after, h => by
    obtain ⟨rest, hrest⟩ := prefix_encode_iff.1 ⟨after, h.symm⟩
    exact ⟨[], rest, by rw [List.nil_append, hrest], rfl⟩
  | c :: text, b :: before, after, h => by
    rw [List.flatMap_cons] at h
    rcases List.append_eq_append_iff.1 h with ⟨more, hbefore, htext⟩ | ⟨more, hchar, hrest⟩
    · obtain ⟨front, rest, rfl, rfl⟩ := exists_cut hpat htext
      exact ⟨c :: front, rest, by simp, by rw [hbefore, List.flatMap_cons]⟩
    · by_cases hnil : more = []
      · subst hnil
        rw [List.append_nil] at hchar
        have hhere : text.flatMap String.utf8EncodeChar = [] ++ (pat.flatMap String.utf8EncodeChar ++ after) := hrest.symm
        obtain ⟨front, rest, rfl, hfront⟩ := exists_cut hpat hhere
        exact ⟨c :: front, rest, by simp, by rw [List.flatMap_cons, ← hfront, List.append_nil, hchar]⟩
      · -- what is left of the character would start the pattern, but starts no character
        obtain ⟨d, pat, rfl⟩ := List.exists_cons_of_ne_nil hpat
        obtain ⟨b', more', hb', hfirst⟩ := encodeChar_cons d
        rw [List.flatMap_cons, hb', List.cons_append, List.cons_append] at hrest
        exfalso
        rcases suffix_encodeChar ⟨b :: before, hchar.symm⟩ hnil with hall | ⟨m, rest, rfl, hm⟩
        · have hlen := congrArg List.length hchar
          rw [hall, List.length_append, List.length_cons] at hlen
          omega
        · rw [List.cons_append, List.cons.injEq] at hrest
          exact hm (hrest.1 ▸ hfirst)

/-! ## Reading with replacements -/

/-- The character that starts a sequence of bytes. -/
def decode? (bytes : List UInt8) : Option Char := ByteArray.utf8DecodeChar? bytes.toByteArray 0

theorem decode?_append (c : Char) (rest : List UInt8) : decode? (String.utf8EncodeChar c ++ rest) = some c := by
  rw [decode?, List.toByteArray_append]
  exact ByteArray.utf8DecodeChar?_utf8EncodeChar_append

/-- Whether the second byte goes on with a character of three or four bytes that
the first one starts. -/
def goesOn (first second : UInt8) : Bool :=
  (first == 0xE0 && 0xA0 ≤ second && second ≤ 0xBF) ||
    (0xE1 ≤ first && first ≤ 0xEC && 0x80 ≤ second && second ≤ 0xBF) ||
    (first == 0xED && 0x80 ≤ second && second ≤ 0x9F) ||
    (0xEE ≤ first && first ≤ 0xEF && 0x80 ≤ second && second ≤ 0xBF) ||
    (first == 0xF0 && 0x90 ≤ second && second ≤ 0xBF) ||
    (0xF1 ≤ first && first ≤ 0xF3 && 0x80 ≤ second && second ≤ 0xBF) ||
    (first == 0xF4 && 0x80 ≤ second && second ≤ 0x8F)

/-- How many bytes, none of them a character's last, stand for one error. -/
def invalidLength : List UInt8 → Nat
  | first :: second :: rest =>
    if goesOn first second then
      if 0xF0 ≤ first && rest.head?.any (fun third => 0x80 ≤ third && third ≤ 0xBF) then 3 else 2
    else 1
  | _ => 1

/-- With `skip` bytes of a character or an error still to be dropped. -/
def lossyFrom : Nat → List UInt8 → List Char
  | _, [] => []
  | skip + 1, _ :: rest => lossyFrom skip rest
  | 0, b :: rest =>
    match decode? (b :: rest) with
    | some c => c :: lossyFrom (c.utf8Size - 1) rest
    | none => '\uFFFD' :: lossyFrom (invalidLength (b :: rest) - 1) rest

/-- `String::from_utf8_lossy` -/
def lossy (bytes : List UInt8) : List Char := lossyFrom 0 bytes

theorem lossyFrom_eq : ∀ (skip : Nat) (bytes : List UInt8), lossyFrom skip bytes = lossy (bytes.drop skip)
  | _, [] => by simp [lossyFrom, lossy]
  | 0, _ :: _ => rfl
  | skip + 1, _ :: rest => lossyFrom_eq skip rest

/-- A character, and then the rest. -/
theorem lossy_append (c : Char) (rest : List UInt8) : lossy (String.utf8EncodeChar c ++ rest) = c :: lossy rest := by
  obtain ⟨b, more, hbytes⟩ := List.exists_cons_of_ne_nil (String.utf8EncodeChar_ne_nil (c := c))
  have hlength : c.utf8Size - 1 = more.length := by
    have := String.length_utf8EncodeChar c
    rw [hbytes, List.length_cons] at this
    omega
  have hdecode := decode?_append c rest
  rw [hbytes, List.cons_append] at hdecode
  rw [hbytes, List.cons_append, lossy, lossyFrom, hdecode]
  simp only [hlength, lossyFrom_eq, List.drop_left]

/-- Text is read as it is. -/
theorem lossy_encode : ∀ text : List Char, lossy (text.flatMap String.utf8EncodeChar) = text
  | [] => rfl
  | c :: text => by rw [List.flatMap_cons, lossy_append, lossy_encode text]

/-- One character is read at a time, or a replacement for bytes that are none. -/
theorem lossy_cases {bytes : List UInt8} (hne : bytes ≠ []) :
    (∃ c rest, bytes = String.utf8EncodeChar c ++ rest ∧ lossy bytes = c :: lossy rest) ∨
      ∃ dropped rest, dropped ≠ [] ∧ bytes = dropped ++ rest ∧ lossy bytes = '\uFFFD' :: lossy rest := by
  obtain ⟨b, more, rfl⟩ := List.exists_cons_of_ne_nil hne
  cases hdecode : decode? (b :: more) with
  | some c =>
    obtain ⟨rest, hrest⟩ := ByteArray.exists_of_utf8DecodeChar?_eq_some hdecode
    have hbytes : b :: more = String.utf8EncodeChar c ++ rest.data.toList := by
      simpa using congrArg (fun array => array.data.toList) hrest
    exact .inl ⟨c, rest.data.toList, hbytes, by rw [hbytes, lossy_append]⟩
  | none =>
    refine .inr ⟨b :: more.take (invalidLength (b :: more) - 1), more.drop (invalidLength (b :: more) - 1),
      List.cons_ne_nil _ _, by simp, ?_⟩
    rw [lossy, lossyFrom, hdecode]
    simp only [lossyFrom_eq]

/-- A character read is in the bytes, but for replacements. -/
theorem of_mem_lossy {c : Char} {bytes : List UInt8} (h : c ∈ lossy bytes) (hc : c ≠ '\uFFFD') :
    ∀ b ∈ String.utf8EncodeChar c, b ∈ bytes := by
  induction hn : bytes.length using Nat.strongRecOn generalizing bytes with
  | ind n ih =>
    subst hn
    have hne : bytes ≠ [] := by
      intro hnil
      simp [hnil, lossy, lossyFrom] at h
    intro b hb
    rcases lossy_cases hne with ⟨d, rest, rfl, hlossy⟩ | ⟨dropped, rest, hdropped, rfl, hlossy⟩
    · rw [hlossy] at h
      obtain rfl | hrest := List.mem_cons.1 h
      · exact List.mem_append_left _ hb
      · have hpos := List.length_pos_iff.2 (String.utf8EncodeChar_ne_nil (c := d))
        exact List.mem_append_right _ (ih rest.length (by rw [List.length_append]; omega) hrest rfl b hb)
    · rw [hlossy] at h
      have hrest := (List.mem_cons.1 h).resolve_left hc
      have hpos := List.length_pos_iff.2 hdropped
      exact List.mem_append_right _ (ih rest.length (by rw [List.length_append]; omega) hrest rfl b hb)

/-- Without replacements what is read is the text. -/
theorem encode_lossy {bytes : List UInt8} (h : '\uFFFD' ∉ lossy bytes) :
    (lossy bytes).flatMap String.utf8EncodeChar = bytes := by
  induction hn : bytes.length using Nat.strongRecOn generalizing bytes with
  | ind n ih =>
    subst hn
    by_cases hne : bytes = []
    · subst hne
      rfl
    rcases lossy_cases hne with ⟨d, rest, rfl, hlossy⟩ | ⟨dropped, rest, hdropped, rfl, hlossy⟩
    · rw [hlossy, List.mem_cons, not_or] at h
      have hpos := List.length_pos_iff.2 (String.utf8EncodeChar_ne_nil (c := d))
      rw [hlossy, List.flatMap_cons, ih rest.length (by rw [List.length_append]; omega) h.2 rfl]
    · rw [hlossy] at h
      exact absurd List.mem_cons_self h

end Utf8
