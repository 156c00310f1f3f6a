/-
JSON on one line. What breaks a line is a control character, which a string
escapes: what is written of text is text without line breaks.
-/
import Bellows.Lib.Json
import Bellows.Lib.Utf8

namespace Json

/-- The bytes of a text without line breaks. -/
def OneLine (bytes : List UInt8) : Prop :=
  ∃ text : List Char, bytes = text.flatMap String.utf8EncodeChar ∧ '\n' ∉ text ∧ '\r' ∉ text

theorem OneLine.append {a b : List UInt8} (ha : OneLine a) (hb : OneLine b) : OneLine (a ++ b) := by
  obtain ⟨s, rfl, hs⟩ := ha
  obtain ⟨t, rfl, ht⟩ := hb
  refine ⟨s ++ t, List.flatMap_append.symm, ?_, ?_⟩
  · simp [hs.1, ht.1]
  · simp [hs.2, ht.2]

theorem oneLine_nil : OneLine [] := ⟨[], rfl, by simp, by simp⟩

/-- A character that is one byte. -/
theorem OneLine.cons {b : UInt8} {bytes : List UInt8} (c : Char) (hc : String.utf8EncodeChar c = [b]) (hn : c ≠ '\n')
    (hr : c ≠ '\r') (h : OneLine bytes) : OneLine (b :: bytes) := by
  have hone : OneLine [b] := ⟨[c], by simp [hc], by simpa using hn.symm, by simpa using hr.symm⟩
  exact hone.append h

theorem oneLine_flatMap {α : Type*} {encode : α → List UInt8} {items : List α} (h : ∀ item ∈ items, OneLine (encode item)) :
    OneLine (items.flatMap encode) := by
  induction items with
  | nil => exact oneLine_nil
  | cons item items ih =>
    rw [List.flatMap_cons]
    exact (h item List.mem_cons_self).append (ih fun other hother => h other (List.mem_cons_of_mem _ hother))

/-- What is written of an ASCII character, as text again. -/
theorem escape_ascii : ∀ n < 128,
    let bytes := (String.utf8EncodeChar (Char.ofNat n)).flatMap escape
    let text := bytes.map fun b => Char.ofNat b.toNat
    bytes = text.flatMap String.utf8EncodeChar ∧ '\n' ∉ text ∧ '\r' ∉ text := by
  decide +kernel

theorem escaped_ascii : ∀ b ∈ escaped, b.toNat < 128 := by decide +kernel

theorem oneLine_escapeChar (c : Char) : OneLine ((String.utf8EncodeChar c).flatMap escape) := by
  by_cases hascii : c.toNat < 128
  · have htext := escape_ascii c.toNat hascii
    rw [Char.ofNat_toNat] at htext
    exact ⟨_, htext⟩
  · -- no byte of another character has an escape
    have hplain : ∀ b ∈ String.utf8EncodeChar c, escape b = [b] := by
      intro b hb
      rcases escape_cases b with hescaped | ⟨heq, -⟩
      · have hlt := escaped_ascii b hescaped
        exact absurd (Utf8.toNat_of_mem_encodeChar hb hlt ▸ hlt) hascii
      · exact heq
    refine ⟨[c], ?_, ?_, ?_⟩
    · rw [List.flatMap_singleton, List.flatMap_congr hplain, List.flatMap_singleton']
    · exact fun hmem => hascii (List.mem_singleton.1 hmem ▸ by decide)
    · exact fun hmem => hascii (List.mem_singleton.1 hmem ▸ by decide)

theorem oneLine_string (text : List Char) : OneLine (string (text.flatMap String.utf8EncodeChar)) := by
  have hbody : OneLine ((text.flatMap String.utf8EncodeChar).flatMap escape) := by
    rw [List.flatMap_assoc]
    exact oneLine_flatMap fun c _ => oneLine_escapeChar c
  have hquote : OneLine [34] := oneLine_nil.cons '"' (by decide) (by decide) (by decide)
  exact (hbody.append hquote).cons '"' (by decide) (by decide) (by decide)

theorem oneLine_null : OneLine null := ⟨"null".toList, by decide, by decide, by decide⟩

theorem oneLine_member (name : List Char) {value : List UInt8} (h : OneLine value) :
    OneLine (member (name.flatMap String.utf8EncodeChar) value) :=
  (oneLine_string name).append (h.cons ':' (by decide) (by decide) (by decide))

/-- An object is a text that starts with its brace. -/
theorem exists_text_object {members : List (List UInt8 × List UInt8)} (h : ∀ m ∈ members, OneLine (member m.1 m.2)) :
    ∃ rest : List Char, object members = ('{' :: rest).flatMap String.utf8EncodeChar ∧ '\n' ∉ rest ∧ '\r' ∉ rest := by
  have hclose : OneLine [125] := oneLine_nil.cons '}' (by decide) (by decide) (by decide)
  have hmembers : OneLine (Encoding.sequence (fun m => member m.1 m.2) 44 125 members) := by
    induction members with
    | nil => exact hclose
    | cons m members ih =>
      rw [Encoding.sequence_cons]
      refine (h m List.mem_cons_self).append ?_
      split
      · exact hclose
      · have hrest := ih fun other hother => h other (List.mem_cons_of_mem _ hother)
        exact hrest.cons ',' (by decide) (by decide) (by decide)
  obtain ⟨rest, heq, hbreaks⟩ := hmembers
  refine ⟨rest, ?_, hbreaks⟩
  rw [object, heq]
  rfl

end Json
