/-
Strings as Rust's `Debug` writes them: quoted, with escapes. Which characters
are written as they are depends on tables of Unicode and on what kind of string
it is; a `Style` is any such choice.
-/
import Mathlib.Algebra.Group.Nat.Defs
import Bellows.Lib.Text

namespace Escapes

structure Style where
  /-- Written as it is, where no short escape is. -/
  printable : Char → Bool
  /-- Whether a single quote is escaped too. -/
  singleQuote : Bool

/-- The letter of a short escape. -/
def shortEscape (style : Style) (c : Char) : Option Char :=
  if c = '\x00' then some '0'
  else if c = '\t' then some 't'
  else if c = '\r' then some 'r'
  else if c = '\n' then some 'n'
  else if c = '\\' then some '\\'
  else if c = '"' then some '"'
  else if c = '\'' ∧ style.singleQuote then some '\''
  else none

/-- `\u`, and the number in hexadecimal between braces. -/
def escapeUnicode (c : Char) : Text := '\\' :: 'u' :: '\x7b' :: (Nat.toDigits 16 c.toNat ++ ['\x7d'])

/-- `char::escape_debug` -/
def escape (style : Style) (c : Char) : Text :=
  match shortEscape style c with
  | some letter => ['\\', letter]
  | none => if style.printable c then [c] else escapeUnicode c

/-- A string's `Debug`. -/
def quote (style : Style) (text : Text) : Text := '"' :: (text.flatMap (escape style) ++ ['"'])

/-! ## Numbers in hexadecimal -/

/-- `char::to_digit(16)` -/
def toDigit (c : Char) : Option Nat :=
  if '0' ≤ c ∧ c ≤ '9' then some (c.toNat - 48)
  else if 'a' ≤ c ∧ c ≤ 'f' then some (c.toNat - 87)
  else if 'A' ≤ c ∧ c ≤ 'F' then some (c.toNat - 55)
  else none

/-- One digit more of a `u32`. -/
def pushDigit (n : Nat) (c : Char) : Except Text Nat :=
  match toDigit c with
  | none => .error "invalid digit found in string".toList
  | some d => if n * 16 + d < 2 ^ 32 then .ok (n * 16 + d) else .error "number too large to fit in target type".toList

/-- `u32::from_str_radix` in base 16. -/
def fromStrRadix : Text → Except Text Nat
  | [] => .error "cannot parse integer from empty string".toList
  | ['+'] => .error "invalid digit found in string".toList
  | '+' :: digits => digits.foldlM pushDigit 0
  | digits => digits.foldlM pushDigit 0

theorem toDigit_digitChar {d : Nat} (hd : d < 16) : toDigit d.digitChar = some d := by
  have hall : ∀ d < 16, toDigit d.digitChar = some d := by decide
  exact hall d hd

/-- A number's digits make it up again, one after another. -/
theorem foldlM_toDigits_of_push {m : Type → Type} [Monad m] [LawfulMonad m] {push : Nat → Char → m Nat}
    {base bound : Nat} (hbase : 1 < base)
    (hpush : ∀ d < base, ∀ n, n * base + d < bound → push n d.digitChar = pure (n * base + d)) {n : Nat}
    (hn : n < bound) : (Nat.toDigits base n).foldlM push 0 = pure n := by
  induction n using Nat.strongRecOn with
  | ind n ih =>
    by_cases hlt : n < base
    · have hfirst := hpush n hlt 0 (by simpa using hn)
      rw [Nat.zero_mul, Nat.zero_add] at hfirst
      rw [Nat.toDigits_of_lt_base hlt, List.foldlM_cons, hfirst, pure_bind]
      rfl
    · have hlast : n / base * base + n % base = n := Nat.div_add_mod' n base
      have hless : n / base < n := Nat.div_lt_self (by omega) hbase
      have hdigit := hpush (n % base) (Nat.mod_lt _ (by omega)) (n / base) (hlast.symm ▸ hn)
      rw [Nat.toDigits_of_base_le hbase (by omega), List.foldlM_append, ih (n / base) hless (hless.trans hn), pure_bind,
        List.foldlM_cons, hdigit, hlast, pure_bind]
      rfl

theorem foldlM_toDigits {n : Nat} (hn : n < 2 ^ 32) : (Nat.toDigits 16 n).foldlM pushDigit 0 = .ok n := by
  refine foldlM_toDigits_of_push (by decide) (fun d hd m hm => ?_) hn
  rw [pushDigit, toDigit_digitChar hd]
  exact if_pos hm

theorem toDigit_of_mem {c : Char} : ∀ {n : Nat}, c ∈ Nat.toDigits 16 n → ∃ d < 16, c = d.digitChar := by
  intro n
  induction n using Nat.strongRecOn with
  | ind n ih =>
    intro hc
    by_cases hlt : n < 16
    · rw [Nat.toDigits_of_lt_base hlt] at hc
      exact ⟨n, hlt, by simpa using hc⟩
    · rw [Nat.toDigits_of_base_le (by decide) (by omega), List.mem_append] at hc
      rcases hc with hc | hc
      · exact ih (n / 16) (by omega) hc
      · exact ⟨n % 16, Nat.mod_lt _ (by decide), by simpa using hc⟩

/-- Neither a sign nor a brace is a digit. -/
theorem not_mem_toDigits {n : Nat} : '+' ∉ Nat.toDigits 16 n ∧ '\x7d' ∉ Nat.toDigits 16 n := by
  have hall : ∀ d < 16, d.digitChar ≠ '+' ∧ d.digitChar ≠ '\x7d' := by decide
  constructor
  · intro hc
    obtain ⟨d, hd, heq⟩ := toDigit_of_mem hc
    exact (hall d hd).1 heq.symm
  · intro hc
    obtain ⟨d, hd, heq⟩ := toDigit_of_mem hc
    exact (hall d hd).2 heq.symm

theorem fromStrRadix_toDigits {n : Nat} (hn : n < 2 ^ 32) : fromStrRadix (Nat.toDigits 16 n) = .ok n := by
  have hfold := foldlM_toDigits hn
  have hplus := (not_mem_toDigits (n := n)).1
  cases hdigits : Nat.toDigits 16 n with
  | nil => exact absurd hdigits Nat.toDigits_ne_nil
  | cons c digits =>
    rw [hdigits] at hfold hplus
    have hc : c ≠ '+' := fun h => hplus (h ▸ List.mem_cons_self)
    rw [fromStrRadix]
    · exact hfold
    · simp
    · intro h; exact hc (List.cons.inj h).1
    · intro rest h; exact hc (List.cons.inj h).1

end Escapes
