/-
Durations: what `parse_duration_secs` reads of a text, and the times that the
client computes with it, the end of a reservation and the cutoff of the log.

The parser saturates, and so does the cutoff's subtraction. The milliseconds
are multiplied and added plainly in between: what is computed is right exactly
where the exact time, of the number as it is written, is a `u64`.
-/
import Bellows.Access.Lines
import Bellows.Cli.LinkCommand

namespace Bellows.Lease

open Bellows.Core Bellows.Access Bellows.Cli

/-! ## The text -/

/-- Why a duration is refused, with the text, trimmed. -/
inductive DurationError where
  | number (text : Text)
  | unit (text : Text)
  deriving DecidableEq, Repr

/-- What is said after `invalid duration {text:?}: `. -/
def DurationError.reason : DurationError → String
  | .number _ => "expected e.g. 20m, 1h or 90s"
  | .unit _ => "unit must be s, m or h"

/-- The number and the unit: the text up to its first character that is not a digit, and the rest. -/
def splitUnit (text : Text) : Text × Text :=
  match text.findIdx? fun c => !c.isDigit with
  | some split => text.splitAt split
  | none => (text, ['m'])

def unitScale (unit : Text) : Option Nat :=
  if unit = ['s'] then some 1 else if unit = ['m'] then some 60 else if unit = ['h'] then some 3600 else none

def saturatingMul (a b : Nat) : Nat := min (a * b) U64_MAX

def parseDurationSecs (text : Text) : Except DurationError Nat :=
  let text := trim text
  let (number, unit) := splitUnit text
  match parseU64 number with
  | none => .error (.number text)
  | some value =>
    match unitScale unit with
    | none => .error (.unit text)
    | some scale => .ok (saturatingMul value scale)

/-- A duration's text says `number` of the unit of `scale` seconds, which is minutes where none is written. -/
def Denotes (text : Text) (number scale : Nat) : Prop :=
  ∃ digits unit, trim text = digits ++ unit ∧ digits ≠ [] ∧ digits.all Char.isDigit ∧
    Nat.ofDigitChars 10 digits 0 = number ∧ (unit = [] ∧ scale = 60 ∨ unitScale unit = some scale)

/-! ## The times -/

/-- With or without overflow checks: `cargo build` has them, `cargo build --release` does not. -/
inductive Build where
  | debug
  | release

/-- The `u64` of a result. One that overflows stops a checked build, and wraps in one that is not. -/
def Build.word (build : Build) (n : Nat) : Option Nat :=
  if n ≤ U64_MAX then some n
  else match build with
    | .debug => none
    | .release => some (n % (U64_MAX + 1))

def Build.mul (build : Build) (a b : Nat) : Option Nat := build.word (a * b)

def Build.add (build : Build) (a b : Nat) : Option Nat := build.word (a + b)

/-- The `until_ms` that `Reserve` sends: `none` where the client panics instead. -/
def reserveUntil (build : Build) (nowMs : Nat) (duration : Text) : Except DurationError (Option Nat) := do
  let secs ← parseDurationSecs duration
  return do build.add nowMs (← build.mul secs 1000)

/-- The cutoff of `Log`. -/
def logCutoff (build : Build) (nowMs : Nat) : Option Text → Except DurationError (Option Nat)
  | some since => do
    let secs ← parseDurationSecs since
    return do return nowMs - (← build.mul secs 1000)
  | none => .ok (some 0)

/-! ## What is read -/

theorem unitScale_cases {unit : Text} {scale : Nat} (h : unitScale unit = some scale) :
    ∃ c, unit = [c] ∧ c.isDigit = false ∧ 1 ≤ scale ∧ scale ≤ 3600 := by
  unfold unitScale at h
  split at h
  · next hs => exact ⟨'s', hs, by decide, by simp at h; omega⟩
  · split at h
    · next hm => exact ⟨'m', hm, by decide, by simp at h; omega⟩
    · split at h
      · next hh => exact ⟨'h', hh, by decide, by simp at h; omega⟩
      · cases h

theorem splitUnit_bare {digits : Text} (h : digits.all Char.isDigit = true) : splitUnit digits = (digits, ['m']) := by
  have hnone : digits.findIdx? (fun c => !c.isDigit) = none := by
    simpa using h
  rw [splitUnit, hnone]

theorem splitUnit_append {digits unit : Text} {c : Char} (h : digits.all Char.isDigit = true)
    (hc : c.isDigit = false) : splitUnit (digits ++ c :: unit) = (digits, c :: unit) := by
  have hsome : (digits ++ c :: unit).findIdx? (fun c => !c.isDigit) = some digits.length := by
    have hnone : digits.findIdx? (fun c => !c.isDigit) = none := by
      simpa using h
    simp [List.findIdx?_append, hnone, List.findIdx?_cons, hc]
  simp [splitUnit, hsome, List.splitAt_eq]

theorem parseU64_digits {digits : Text} (hne : digits ≠ []) (hd : digits.all Char.isDigit = true) :
    parseU64 digits =
      if Nat.ofDigitChars 10 digits 0 ≤ U64_MAX then some (Nat.ofDigitChars 10 digits 0) else none := by
  have hplus : digits.head? ≠ some '+' := by
    intro hh
    have hdigit := List.all_eq_true.1 hd '+' (List.mem_of_head? hh)
    revert hdigit
    decide
  simp [parseU64, hplus, hne, hd]

/-- A text that says a duration is refused only for its number, and is read with the product saturated. -/
theorem Denotes.parse {text : Text} {number scale : Nat} (h : Denotes text number scale) :
    parseDurationSecs text =
      if number ≤ U64_MAX then .ok (min (number * scale) U64_MAX) else .error (.number (trim text)) := by
  obtain ⟨digits, unit, htext, hne, hd, rfl, hunit⟩ := h
  obtain ⟨u, hsplit, hu⟩ : ∃ u, splitUnit (trim text) = (digits, u) ∧ unitScale u = some scale := by
    rcases hunit with ⟨rfl, rfl⟩ | hunit
    · exact ⟨['m'], by rw [htext, List.append_nil, splitUnit_bare hd], rfl⟩
    · obtain ⟨c, rfl, hc, -, -⟩ := unitScale_cases hunit
      exact ⟨[c], by rw [htext, splitUnit_append hd hc], hunit⟩
  simp only [parseDurationSecs, hsplit, parseU64_digits hne hd]
  by_cases hle : Nat.ofDigitChars 10 digits 0 ≤ U64_MAX
  · simp [hle, hu, saturatingMul]
  · simp [hle]

theorem Denotes.scale_bounds {text : Text} {number scale : Nat} (h : Denotes text number scale) :
    1 ≤ scale ∧ scale ≤ 3600 := by
  obtain ⟨digits, unit, -, -, -, -, hunit⟩ := h
  rcases hunit with ⟨-, rfl⟩ | hunit
  · omega
  · obtain ⟨-, -, -, h⟩ := unitScale_cases hunit
    exact h

/-! ## When nothing overflows -/

theorem Build.word_of_le {n : Nat} (build : Build) (h : n ≤ U64_MAX) : build.word n = some n := if_pos h

theorem Build.word_debug {n m : Nat} (h : Build.debug.word n = some m) : n ≤ U64_MAX ∧ m = n := by
  by_cases hn : n ≤ U64_MAX
  · exact ⟨hn, by simpa [Build.word, hn, eq_comm] using h⟩
  · simp [Build.word, hn] at h

theorem Denotes.parse_of_le {text : Text} {number scale : Nat} (hd : Denotes text number scale)
    (h : number * scale ≤ U64_MAX) : parseDurationSecs text = .ok (number * scale) := by
  have hnumber : number ≤ number * scale := Nat.le_mul_of_pos_right number (by have := hd.scale_bounds; omega)
  rw [hd.parse, if_pos (by omega), Nat.min_eq_left h]

theorem reserveUntil_of_le {text : Text} {number scale nowMs : Nat} (build : Build) (hd : Denotes text number scale)
    (h : nowMs + number * scale * 1000 ≤ U64_MAX) :
    reserveUntil build nowMs text = .ok (some (nowMs + number * scale * 1000)) := by
  have hmul : build.mul (number * scale) 1000 = some (number * scale * 1000) := build.word_of_le (by omega)
  have hadd : build.add nowMs (number * scale * 1000) = some (nowMs + number * scale * 1000) := build.word_of_le h
  rw [reserveUntil, hd.parse_of_le (by omega)]
  simp [hmul, hadd, bind, Except.bind, pure, Except.pure]

theorem logCutoff_of_le {text : Text} {number scale : Nat} (build : Build) (nowMs : Nat) (hd : Denotes text number scale)
    (h : number * scale * 1000 ≤ U64_MAX) :
    logCutoff build nowMs (some text) = .ok (some (nowMs - number * scale * 1000)) := by
  have hmul : build.mul (number * scale) 1000 = some (number * scale * 1000) := build.word_of_le h
  simp only [logCutoff]
  rw [hd.parse_of_le (by omega)]
  simp [hmul, bind, Except.bind, pure, Except.pure]

/-- Milliseconds that a checked build computes are those of the text: the parser has not saturated. -/
theorem Denotes.mul_debug {text : Text} {number scale secs ms : Nat} (hd : Denotes text number scale)
    (hparse : parseDurationSecs text = .ok secs) (hmul : Build.debug.mul secs 1000 = some ms) :
    number * scale * 1000 ≤ U64_MAX ∧ ms = number * scale * 1000 := by
  obtain ⟨hle, rfl⟩ := Build.word_debug hmul
  rw [hd.parse] at hparse
  split at hparse
  · cases hparse
    unfold U64_MAX at hle ⊢
    omega
  · cases hparse

/-- Every build computes the end of a reservation, which is not before now and for no shorter duration later. -/
def ReserveOk (nowMs : Nat) (duration : Text) (secs : Nat) : Prop :=
  ∃ untilMs, (∀ build, reserveUntil build nowMs duration = .ok (some untilMs)) ∧ nowMs ≤ untilMs ∧
    ∀ shorter number scale, Denotes shorter number scale → number * scale ≤ secs →
      ∃ sooner, (∀ build, reserveUntil build nowMs shorter = .ok (some sooner)) ∧ sooner ≤ untilMs

/-- Every build computes the cutoff, and the same one. -/
def LogOk (nowMs : Nat) (since : Text) : Prop :=
  ∃ cutoff, ∀ build, logCutoff build nowMs (some since) = .ok (some cutoff)

/-- A reservation's end is computed as it should be exactly when the time it stands for is a `u64`, and the
cutoff of the log exactly when the duration in milliseconds is one. -/
theorem duration_ok_iff {text : Text} {secs number scale : Nat} (nowMs : Nat)
    (hparse : parseDurationSecs text = .ok secs) (hd : Denotes text number scale) :
    (ReserveOk nowMs text (number * scale) ↔ nowMs + number * scale * 1000 ≤ U64_MAX) ∧
      (LogOk nowMs text ↔ number * scale * 1000 ≤ U64_MAX) := by
  refine ⟨⟨fun ⟨untilMs, hall, _⟩ => ?_, fun h => ?_⟩, ⟨fun ⟨cutoff, hall⟩ => ?_, fun h => ?_⟩⟩
  · have hdebug := hall .debug
    simp only [reserveUntil, hparse, bind, Except.bind, pure, Except.pure, Except.ok.injEq] at hdebug
    obtain ⟨ms, hmul, hadd⟩ := Option.bind_eq_some_iff.1 hdebug
    obtain ⟨-, rfl⟩ := hd.mul_debug hparse hmul
    exact (Build.word_debug hadd).1
  · refine ⟨nowMs + number * scale * 1000, fun build => reserveUntil_of_le build hd h, by omega, ?_⟩
    intro shorter n s hs hle
    have hsooner : nowMs + n * s * 1000 ≤ nowMs + number * scale * 1000 :=
      Nat.add_le_add_left (Nat.mul_le_mul_right 1000 hle) nowMs
    exact ⟨nowMs + n * s * 1000, fun build => reserveUntil_of_le build hs (hsooner.trans h), hsooner⟩
  · have hdebug := hall .debug
    simp only [logCutoff, hparse, bind, Except.bind, pure, Except.pure, Except.ok.injEq] at hdebug
    obtain ⟨ms, hmul, -⟩ := Option.bind_eq_some_iff.1 hdebug
    exact (hd.mul_debug hparse hmul).1
  · exact ⟨_, fun build => logCutoff_of_le build nowMs hd h⟩

/-- An hour and a half from now, and back. -/
theorem duration_ok_ninety :
    ReserveOk 1760000000000 "90m".toList (90 * 60) ∧ LogOk 1760000000000 "90m".toList :=
  have hparse : parseDurationSecs "90m".toList = .ok 5400 := by decide
  have hd : Denotes "90m".toList 90 60 :=
    ⟨"90".toList, "m".toList, by decide, by decide, by decide, by decide, .inr (by decide)⟩
  have h := duration_ok_iff 1760000000000 hparse hd
  ⟨h.1.2 (by decide), h.2.2 (by decide)⟩

/-- A checked build panics. The other one makes a reservation that has already ended. -/
theorem reserveUntil_wraps :
    parseDurationSecs "18446744073709551s".toList = .ok 18446744073709551 ∧
      reserveUntil .debug 1760000000000 "18446744073709551s".toList = .ok none ∧
      reserveUntil .release 1760000000000 "18446744073709551s".toList = .ok (some 1759999999384) ∧
      ¬ ReserveOk 1760000000000 "18446744073709551s".toList 18446744073709551 := by
  refine ⟨by decide, by decide, by decide, fun ⟨untilMs, hall, _⟩ => ?_⟩
  have hdebug := hall .debug
  have hnone : reserveUntil .debug 1760000000000 "18446744073709551s".toList = .ok none := by decide
  rw [hnone] at hdebug
  cases hdebug

end Bellows.Lease
