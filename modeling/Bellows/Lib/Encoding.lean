/-
Self-delimiting encodings. Values encoded one after another are told apart if
no encoding can be read on into what follows it (`Delimited`); the rules build
such encodings of texts, pairs and sequences from those of their parts, and
`leBytes` is the fixed width one of numbers.
-/
import Mathlib.Algebra.Group.Nat.Defs
import Mathlib.Data.List.Infix

namespace Encoding

variable {α β γ : Type}

/-- Two encodings that agree with what follows them are of one value, and
followed by the same. -/
def Delimited (encode : α → List β) : Prop :=
  ∀ a b r s, encode a ++ r = encode b ++ s → a = b ∧ r = s

theorem Delimited.injective {encode : α → List β} (h : Delimited encode) : Function.Injective encode := by
  intro a b hab
  exact (h a b [] [] (by simpa using hab)).1

/-- A prefix code is one. -/
theorem Delimited.of_prefix_free {encode : α → List β} (h : ∀ a b, encode a <+: encode b → a = b) :
    Delimited encode := by
  intro a b r s hab
  have hpre : encode a <+: encode b ++ s := ⟨r, hab⟩
  have hone : a = b := by
    rcases List.prefix_or_prefix_of_prefix hpre (List.prefix_append _ _) with hle | hle
    · exact h a b hle
    · exact (h b a hle).symm
  subst hone
  exact ⟨rfl, List.append_cancel_left hab⟩

theorem Delimited.comp {encode : β → List γ} (h : Delimited encode) {f : α → β} (hf : Function.Injective f) :
    Delimited fun a => encode (f a) := by
  intro a b r s hab
  obtain ⟨hcode, hrest⟩ := h _ _ r s hab
  exact ⟨hf hcode, hrest⟩

/-- Between fixed words. -/
theorem Delimited.enclose {encode : α → List β} (h : Delimited encode) (before after : List β) :
    Delimited fun a => before ++ encode a ++ after := by
  intro a b r s hab
  simp only [List.append_assoc, List.append_cancel_left_eq] at hab
  obtain ⟨hcode, hrest⟩ := h a b _ _ hab
  exact ⟨hcode, List.append_cancel_left hrest⟩

/-- One after the other; the second may depend on the first. -/
theorem Delimited.prod {first : α → List γ} {second : α → β → List γ} (h : Delimited first)
    (h' : ∀ a, Delimited (second a)) : Delimited fun p : α × β => first p.1 ++ second p.1 p.2 := by
  intro ⟨a, b⟩ ⟨a', b'⟩ r s hab
  simp only [List.append_assoc] at hab
  obtain ⟨rfl, hsecond⟩ := h a a' _ _ hab
  obtain ⟨rfl, hrest⟩ := h' a b b' r s hsecond
  exact ⟨rfl, hrest⟩

/-- An absent value is a word that no encoding of a present one starts as. -/
theorem Delimited.option {encode : α → List β} (h : Delimited encode) {absent : List β}
    (hab : ∀ a r s, absent ++ r ≠ encode a ++ s) :
    Delimited fun o : Option α => match o with | none => absent | some a => encode a := by
  intro o o' r s heq
  cases o with
  | none =>
    cases o' with
    | none => exact ⟨rfl, List.append_cancel_left heq⟩
    | some b => exact absurd heq (hab b r s)
  | some a =>
    cases o' with
    | none => exact absurd heq.symm (hab a s r)
    | some b =>
      obtain ⟨rfl, hrest⟩ := h a b r s heq
      exact ⟨rfl, hrest⟩

/-! ## Texts, letter by letter -/

theorem Delimited.flatMap_injective {encode : α → List β} (h : Delimited encode) (hne : ∀ a, encode a ≠ []) :
    Function.Injective fun text : List α => text.flatMap encode := by
  intro text
  induction text with
  | nil =>
    intro text' heq
    cases text' with
    | nil => rfl
    | cons b text' => exact absurd (List.append_eq_nil_iff.1 heq.symm).1 (hne b)
  | cons a text ih =>
    intro text' heq
    cases text' with
    | nil => exact absurd (List.append_eq_nil_iff.1 heq).1 (hne a)
    | cons b text' =>
      obtain ⟨rfl, hrest⟩ := h a b _ _ heq
      rw [ih hrest]

/-- Up to a letter that no letter's encoding starts with. -/
theorem Delimited.terminated {encode : α → List β} (h : Delimited encode) {stop : β}
    (hstop : ∀ a, ∃ c word, encode a = c :: word ∧ c ≠ stop) :
    Delimited fun text : List α => text.flatMap encode ++ [stop] := by
  intro text
  induction text with
  | nil =>
    intro text' r s heq
    cases text' with
    | nil => exact ⟨rfl, by simpa using heq⟩
    | cons b text' =>
      obtain ⟨c, word, hc, hne⟩ := hstop b
      simp only [List.flatMap_cons, hc] at heq
      exact absurd (List.cons.inj heq).1.symm hne
  | cons a text ih =>
    intro text' r s heq
    cases text' with
    | nil =>
      obtain ⟨c, word, hc, hne⟩ := hstop a
      simp only [List.flatMap_cons, hc] at heq
      exact absurd (List.cons.inj heq).1 hne
    | cons b text' =>
      simp only [List.flatMap_cons, List.append_assoc] at heq
      obtain ⟨rfl, htext⟩ := h a b _ _ heq
      obtain ⟨rfl, hrest⟩ := ih text' r s (by simpa using htext)
      exact ⟨rfl, hrest⟩

/-! ## Sequences -/

/-- The items with a separator between them, up to what closes them. -/
def sequence (encode : α → List β) (separator close : β) : List α → List β
  | [] => [close]
  | [item] => encode item ++ [close]
  | item :: next :: items => encode item ++ separator :: sequence encode separator close (next :: items)

/-- What follows the first item. -/
theorem sequence_cons (encode : α → List β) (separator close : β) (item : α) (items : List α) :
    sequence encode separator close (item :: items) =
      encode item ++ if items = [] then [close] else separator :: sequence encode separator close items := by
  cases items with
  | nil => rfl
  | cons next items => rfl

theorem sequence_map (encode : β → List γ) (separator close : γ) (f : α → β) (items : List α) :
    sequence encode separator close (items.map f) = sequence (fun item => encode (f item)) separator close items := by
  induction items with
  | nil => rfl
  | cons item items ih =>
    rw [List.map_cons, sequence_cons, sequence_cons, ih]
    simp only [List.map_eq_nil_iff]

theorem Delimited.sequence {encode : α → List β} (h : Delimited encode) {separator close : β}
    (hsep : separator ≠ close) (hclose : ∀ a, ∃ c word, encode a = c :: word ∧ c ≠ close) :
    Delimited (sequence encode separator close) := by
  intro items
  induction items with
  | nil =>
    intro items' r s heq
    cases items' with
    | nil => exact ⟨rfl, by simpa [Encoding.sequence] using heq⟩
    | cons b items' =>
      obtain ⟨c, word, hc, hne⟩ := hclose b
      rw [sequence_cons, hc] at heq
      exact absurd (List.cons.inj heq).1.symm hne
  | cons a items ih =>
    intro items' r s heq
    cases items' with
    | nil =>
      obtain ⟨c, word, hc, hne⟩ := hclose a
      rw [sequence_cons, hc] at heq
      exact absurd (List.cons.inj heq).1 hne
    | cons b items' =>
      rw [sequence_cons, sequence_cons, List.append_assoc, List.append_assoc] at heq
      obtain ⟨rfl, hitems⟩ := h a b _ _ heq
      -- whether an item follows is told by the next letter
      by_cases hnil : items = []
      · by_cases hnil' : items' = []
        · subst hnil hnil'
          exact ⟨rfl, by simpa using hitems⟩
        · rw [if_pos hnil, if_neg hnil'] at hitems
          exact absurd (List.cons.inj hitems).1.symm hsep
      · by_cases hnil' : items' = []
        · rw [if_neg hnil, if_pos hnil'] at hitems
          exact absurd (List.cons.inj hitems).1 hsep
        · rw [if_neg hnil, if_neg hnil'] at hitems
          obtain ⟨rfl, hrest⟩ := ih items' r s (List.cons.inj hitems).2
          exact ⟨rfl, hrest⟩

/-! ## Numbers of a fixed width -/

/-- The bytes of a number, the lowest first. -/
def leBytes : Nat → Nat → List UInt8
  | 0, _ => []
  | width + 1, n => UInt8.ofNat n :: leBytes width (n / 256)

@[simp] theorem length_leBytes (width n : Nat) : (leBytes width n).length = width := by
  induction width generalizing n with
  | zero => rfl
  | succ width ih => simp [leBytes, ih]

theorem leBytes_inj {width m n : Nat} (hm : m < 256 ^ width) (hn : n < 256 ^ width)
    (h : leBytes width m = leBytes width n) : m = n := by
  induction width generalizing m n with
  | zero => omega
  | succ width ih =>
    obtain ⟨hlow, hhigh⟩ := List.cons.inj h
    have hmod : m % 256 = n % 256 := by simpa using congrArg UInt8.toNat hlow
    have hdiv : m / 256 = n / 256 := by
      apply ih _ _ hhigh
      · exact Nat.div_lt_of_lt_mul (by rwa [← Nat.pow_succ'])
      · exact Nat.div_lt_of_lt_mul (by rwa [← Nat.pow_succ'])
    omega

end Encoding
