/-
JSON as `serde_json` writes it, without blanks: strings, arrays and objects
over the bytes of their parts. A string's bytes are escaped one by one, so that
none of them is the quote that ends it.
-/
import Bellows.Lib.Encoding
import Bellows.Lib.Text

namespace Json

/-- A value read (`serde_json::Value`); a number stays as it was written. -/
inductive Value where
  | null
  | bool (b : Bool)
  | number (digits : Text)
  | string (text : Text)
  | array (values : List Value)
  | object (members : List (Text × Value))

variable {α β : Type}

open Encoding

/-- The letter of a short escape, for the control characters that have one,
the quote and the backslash. -/
def shortEscape (b : UInt8) : Option UInt8 :=
  [(8, 98), (9, 116), (10, 110), (12, 102), (13, 114), (34, 34), (92, 92)].lookup b

def hexDigit (n : UInt8) : UInt8 := if n < 10 then 48 + n else 87 + n

def escape (b : UInt8) : List UInt8 :=
  match shortEscape b with
  | some letter => [92, letter]
  | none => if b < 32 then [92, 117, 48, 48, hexDigit (b / 16), hexDigit (b % 16)] else [b]

def string (bytes : List UInt8) : List UInt8 := 34 :: (bytes.flatMap escape ++ [34])

def null : List UInt8 := [110, 117, 108, 108]

def bool : Bool → List UInt8
  | true => [116, 114, 117, 101]
  | false => [102, 97, 108, 115, 101]

def array (encode : α → List UInt8) (items : List α) : List UInt8 := 91 :: sequence encode 44 93 items

/-- A member of an object. -/
def member (name value : List UInt8) : List UInt8 := string name ++ 58 :: value

def object (members : List (List UInt8 × List UInt8)) : List UInt8 :=
  123 :: sequence (fun m => member m.1 m.2) 44 125 members

/-- What follows an object's first member. -/
def objectRest : List (List UInt8 × List UInt8) → List UInt8
  | [] => [125]
  | m :: members => 44 :: (member m.1 m.2 ++ objectRest members)

theorem object_cons (m : List UInt8 × List UInt8) (members : List (List UInt8 × List UInt8)) :
    object (m :: members) = 123 :: (member m.1 m.2 ++ objectRest members) := by
  simp only [object, List.cons.injEq, true_and]
  induction members generalizing m with
  | nil => rfl
  | cons next members ih => rw [sequence_cons, if_neg (List.cons_ne_nil _ _), ih next]; rfl

/-! ## None can be read on -/

/-- The bytes with an escape. -/
def escaped : List UInt8 := 34 :: 92 :: (List.range 32).map UInt8.ofNat

theorem escape_cases (b : UInt8) : b ∈ escaped ∨ escape b = [b] ∧ b ≠ 34 ∧ b ≠ 92 := by
  have hall : ∀ n < 256, UInt8.ofNat n ∈ escaped ∨
      escape (UInt8.ofNat n) = [UInt8.ofNat n] ∧ UInt8.ofNat n ≠ 34 ∧ UInt8.ofNat n ≠ 92 := by
    decide +kernel
  simpa using hall b.toNat b.toNat_lt

theorem escape_escaped : ∀ b ∈ escaped, (escape b).head? = some 92 := by decide +kernel

theorem escape_prefix_escaped : ∀ a ∈ escaped, ∀ b ∈ escaped, escape a <+: escape b → a = b := by decide +kernel

theorem escape_cons (b : UInt8) : ∃ c word, escape b = c :: word ∧ c ≠ 34 := by
  rcases escape_cases b with h | ⟨h, hquote, -⟩
  · obtain ⟨word, hword⟩ := List.head?_eq_some_iff.1 (escape_escaped b h)
    exact ⟨92, word, hword, by decide⟩
  · exact ⟨b, [], h, hquote⟩

theorem delimited_escape : Delimited escape := by
  apply Delimited.of_prefix_free
  intro a b hpre
  rcases escape_cases a with ha | ⟨ha, -, ha'⟩
  · rcases escape_cases b with hb | ⟨hb, -, hb'⟩
    · exact escape_prefix_escaped a ha b hb hpre
    · obtain ⟨word, hword⟩ := List.head?_eq_some_iff.1 (escape_escaped a ha)
      rw [hword, hb] at hpre
      exact absurd (List.cons_prefix_cons.1 hpre).1.symm hb'
  · rcases escape_cases b with hb | ⟨hb, -, -⟩
    · obtain ⟨word, hword⟩ := List.head?_eq_some_iff.1 (escape_escaped b hb)
      rw [hword, ha] at hpre
      exact absurd (List.cons_prefix_cons.1 hpre).1 ha'
    · rw [ha, hb] at hpre
      exact (List.cons_prefix_cons.1 hpre).1

theorem delimited_string : Delimited string := by
  have hbytes := (delimited_escape.terminated escape_cons).enclose [34] []
  simp only [List.append_nil, List.singleton_append] at hbytes
  exact hbytes

/-- A member whose value can be told, and then the rest. -/
theorem delimited_member {first : α → List UInt8} {second : α → β → List UInt8} (name : List UInt8)
    (h : Delimited first) (h' : ∀ a, Delimited (second a)) :
    Delimited fun p : α × β => member name (first p.1) ++ second p.1 p.2 := by
  have hmember := (h.enclose (string name ++ [58]) []).prod h'
  simp only [List.append_nil, List.append_assoc, List.singleton_append] at hmember
  simpa only [member, List.append_assoc, List.cons_append] using hmember

/-- What follows an object's first member: one whose value can be told, and then
the rest. -/
theorem delimited_next {first : α → List UInt8} {rest : β → List UInt8} (name : List UInt8) (h : Delimited first)
    (h' : Delimited rest) : Delimited fun p : α × β => 44 :: (member name (first p.1) ++ rest p.2) := by
  have hmember := (delimited_member name h fun _ => h').enclose [44] []
  simpa using hmember

theorem delimited_array {encode : α → List UInt8} (h : Delimited encode)
    (hclose : ∀ a, ∃ c word, encode a = c :: word ∧ c ≠ 93) : Delimited (array encode) := by
  have hitems := (h.sequence (by decide : (44 : UInt8) ≠ 93) hclose).enclose [91] []
  simp only [List.append_nil, List.singleton_append] at hitems
  exact hitems

end Json
