/-
A loop over a list that may break before any of its elements: it takes a
prefix of the list, and stops nowhere before.
-/
import Mathlib.Data.List.Basic

namespace Until

variable {σ α : Type} {stop : σ → α → Bool} {step : σ → α → σ}

/-- `stop` is asked before each step. -/
def foldUntil (stop : σ → α → Bool) (step : σ → α → σ) : List α → σ → σ
  | [], s => s
  | a :: l, s => if stop s a then s else foldUntil stop step l (step s a)

/-- The loop from `s` takes the first `n` elements. -/
structure StopsAt (stop : σ → α → Bool) (step : σ → α → σ) (l : List α) (s : σ) (n : Nat) : Prop where
  le_length : n ≤ l.length
  goes_on : ∀ i a, i < n → l[i]? = some a → stop ((l.take i).foldl step s) a = false
  stops : ∀ a, l[n]? = some a → stop ((l.take n).foldl step s) a = true

theorem exists_stopsAt (stop : σ → α → Bool) (step : σ → α → σ) : ∀ (l : List α) (s : σ),
    ∃ n, StopsAt stop step l s n ∧ foldUntil stop step l s = (l.take n).foldl step s
  | [], s => ⟨0, ⟨Nat.le_refl _, by simp, by simp⟩, rfl⟩
  | a :: l, s => by
    cases h : stop s a with
    | true =>
      refine ⟨0, ⟨Nat.zero_le _, by omega, fun b hb => ?_⟩, by simp [foldUntil, h]⟩
      simp only [List.getElem?_cons_zero, Option.some.injEq] at hb
      exact hb ▸ h
    | false =>
      obtain ⟨n, hn, heq⟩ := exists_stopsAt stop step l (step s a)
      refine ⟨n + 1, ⟨by simpa using hn.le_length, fun i b hi hb => ?_, fun b hb => ?_⟩, by simp [foldUntil, h, heq]⟩
      · cases i with
        | zero =>
          simp only [List.getElem?_cons_zero, Option.some.injEq] at hb
          exact hb ▸ h
        | succ i => exact hn.goes_on i b (by omega) (by simpa using hb)
      · exact hn.stops b (by simpa using hb)

/-- What every step keeps, the loop keeps. -/
theorem foldUntil_keeps {P : σ → Prop} (keeps : ∀ s a, P s → P (step s a)) :
    ∀ (l : List α) {s : σ}, P s → P (foldUntil stop step l s)
  | [], _, h => h
  | a :: l, s, h => by
    unfold foldUntil
    split
    · exact h
    · exact foldUntil_keeps keeps l (keeps s a h)

end Until
