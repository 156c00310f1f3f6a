/-
Detecting the checkout's paths in what a compile wrote (`Scanner`). This is
the Unix build: bytes are compared as they are, and each root is searched for
in its one spelling.
-/
import Mathlib.Data.Finset.Basic
import Bellows.Core.Localize

namespace Bellows.Cli

open Text Bellows.Core

/-- Shorter roots are treated as always present. -/
def MIN_NEEDLE : Nat := 6

structure Scanner where
  needles : Finset (List UInt8)
  always : Bool

/-- `trim_end_matches(['/', '\\'])` -/
def trimSeparators (root : Text) : Text := (root.reverse.dropWhile isSeparator).reverse

def isSeparatorByte (b : UInt8) : Bool := b == 0x2F || b == 0x5C

/-- The same, of bytes. -/
def trimSeparatorBytes (bytes : List UInt8) : List UInt8 := (bytes.reverse.dropWhile isSeparatorByte).reverse

/-- `to_ascii_lowercase` -/
def toAsciiLowercase (bytes : List UInt8) : List UInt8 :=
  bytes.map fun b => if 0x41 ≤ b && b ≤ 0x5A then b + 0x20 else b

def isPrintable (b : UInt8) : Bool := 0x20 ≤ b && b < 0x7F

def MODULES : List Text :=
  [".o", ".obj", ".rlib", ".lib", ".a", ".res", ".exe", ".dll", ".pdb", ".exp"].map String.toList

/-- `is_linker_bookkeeping` -/
def isLinkerBookkeeping (text root : List UInt8) : Bool :=
  let lower := toAsciiLowercase text
  trimSeparatorBytes lower == trimSeparatorBytes root || decide (utf8 "/out:".toList <:+: lower) ||
    MODULES.any fun extension => (utf8 extension).isSuffixOf lower

/-- `find_iter`: what stands before each occurrence of the needle, read
backwards, and the rest from there on; `skip` elements still belong to the
last occurrence. -/
def occurrences (needle : List UInt8) : Nat → List UInt8 → List UInt8 → List (List UInt8 × List UInt8)
  | _, _, [] => []
  | skip + 1, before, b :: rest => occurrences needle skip (b :: before) rest
  | 0, before, b :: rest =>
    if needle <+: b :: rest then
      (before, b :: rest) :: occurrences needle (needle.length - 1) (b :: before) rest
    else occurrences needle 0 (b :: before) rest

/-- The printable text around an occurrence. -/
def printableAround (occurrence : List UInt8 × List UInt8) : List UInt8 :=
  (occurrence.1.takeWhile isPrintable).reverse ++ occurrence.2.takeWhile isPrintable

namespace Scanner

/-- One round of `new`'s loop. -/
def addRoot (s : Scanner) (root : Text) : Scanner :=
  if utf8Len (trimSeparators root) < MIN_NEEDLE then { s with always := true }
  else { s with needles := insert (utf8 (trimSeparators root)) s.needles }

def new (roots : List Text) : Scanner := roots.foldl addRoot ⟨∅, false⟩

def leaks (s : Scanner) (bytes : List UInt8) : Bool :=
  s.always || decide (∃ needle ∈ s.needles, needle <:+: bytes)

/-- A needle in a program database, but for the linker's own bookkeeping. -/
def leaksAround (bytes needle : List UInt8) : Bool :=
  if needle.contains 0 then decide (needle <:+: bytes)
  else (occurrences needle 0 [] bytes).any fun occurrence =>
    !isLinkerBookkeeping (printableAround occurrence) needle

/-- `leaks_in_program_database` -/
def leaksInProgramDatabase (s : Scanner) (bytes : List UInt8) : Bool :=
  s.always || decide (∃ needle ∈ s.needles, leaksAround bytes needle = true)

/-! ## What a scanner finds -/

theorem le_addRoot (s : Scanner) (root : Text) :
    s.needles ⊆ (s.addRoot root).needles ∧ (s.always = true → (s.addRoot root).always = true) := by
  unfold addRoot
  split
  · exact ⟨Finset.Subset.refl _, fun _ => rfl⟩
  · exact ⟨Finset.subset_insert _ _, id⟩

theorem le_foldl_addRoot (roots : List Text) (s : Scanner) :
    s.needles ⊆ (roots.foldl addRoot s).needles ∧ (s.always = true → (roots.foldl addRoot s).always = true) := by
  induction roots generalizing s with
  | nil => exact ⟨Finset.Subset.refl _, id⟩
  | cons root roots ih =>
    have hone := le_addRoot s root
    have hrest := ih (s.addRoot root)
    exact ⟨hone.1.trans hrest.1, fun h => hrest.2 (hone.2 h)⟩

/-- Each root is searched for, or taken to be everywhere. -/
theorem new_covers {roots : List Text} {root : Text} (h : root ∈ roots) :
    utf8 (trimSeparators root) ∈ (new roots).needles ∨ (new roots).always = true := by
  obtain ⟨before, after, rfl⟩ := List.append_of_mem h
  unfold new
  rw [List.foldl_append, List.foldl_cons]
  have hrest := le_foldl_addRoot after ((before.foldl addRoot ⟨∅, false⟩).addRoot root)
  by_cases hshort : utf8Len (trimSeparators root) < MIN_NEEDLE
  · refine .inr (hrest.2 ?_)
    rw [addRoot, if_pos hshort]
  · refine .inl (hrest.1 ?_)
    rw [addRoot, if_neg hshort]
    exact Finset.mem_insert_self _ _

theorem prefix_utf8_trimSeparators (root : Text) : utf8 (trimSeparators root) <+: utf8 root := by
  have hpre : trimSeparators root <+: root := by
    have := List.dropWhile_suffix (l := root.reverse) isSeparator
    simpa [trimSeparators] using List.reverse_prefix.2 this
  obtain ⟨rest, hrest⟩ := hpre
  exact ⟨utf8 rest, by simp only [utf8, ← List.flatMap_append, hrest]⟩

/-- **No occurrence is missed**, wherever it stands and whatever other roots
it overlaps. -/
theorem leaks_of_infix {roots : List Text} {root : Text} (h : root ∈ roots) {bytes : List UInt8}
    (hin : utf8 root <:+: bytes) : (new roots).leaks bytes = true := by
  unfold leaks
  rcases new_covers h with hneedle | halways
  · have hbytes : utf8 (trimSeparators root) <:+: bytes := (prefix_utf8_trimSeparators root).isInfix.trans hin
    rw [decide_eq_true ⟨_, hneedle, hbytes⟩, Bool.or_true]
  · rw [halways, Bool.true_or]

end Scanner

end Bellows.Cli
