/-
A list worked through in batches, the state refreshed before each: where the
refresh changes nothing, they are no different from one pass.
-/
import Mathlib.Data.List.Basic

namespace Batches

variable {σ α : Type}

/-- Successive pieces of `size` elements; the last may be shorter. -/
def batches (size : Nat) (l : List α) : List (List α) :=
  (List.range ((l.length + size - 1) / size)).map fun i => (l.drop (i * size)).take size

/-- The steps of every batch, each begun by `refresh`. -/
def runBatches (refresh : σ → σ) (step : σ → α → Option σ) (size : Nat) (l : List α) (s : σ) : Option σ :=
  (batches size l).foldlM (fun s batch => batch.foldlM step (refresh s)) s

theorem flatten_range_take (size : Nat) (l : List α) : ∀ n : Nat,
    ((List.range n).map fun i => (l.drop (i * size)).take size).flatten = l.take (n * size)
  | 0 => by simp
  | n + 1 => by
    rw [List.range_succ, List.map_append, List.flatten_append, flatten_range_take size l n, Nat.succ_mul, List.take_add]
    simp

theorem flatten_batches {size : Nat} (h : 0 < size) (l : List α) : (batches size l).flatten = l := by
  rw [batches, flatten_range_take]
  refine List.take_of_length_le ?_
  have hdiv := Nat.div_add_mod (l.length + size - 1) size
  have hmod := Nat.mod_lt (l.length + size - 1) h
  rw [Nat.mul_comm] at hdiv
  omega

theorem foldlM_keeps {step : σ → α → Option σ} {P : σ → Prop} (keeps : ∀ s a t, P s → step s a = some t → P t) :
    ∀ (l : List α) {s t : σ}, P s → l.foldlM step s = some t → P t
  | [], s, t, hs, h => by
    rw [List.foldlM_nil, Option.pure_def, Option.some.injEq] at h
    exact h ▸ hs
  | a :: l, s, t, hs, h => by
    rw [List.foldlM_cons, Option.bind_eq_bind, Option.bind_eq_some_iff] at h
    obtain ⟨u, hu, h⟩ := h
    exact foldlM_keeps keeps l (keeps s a u hs hu) h

theorem foldlM_flatten {refresh : σ → σ} {step : σ → α → Option σ} {P : σ → Prop}
    (same : ∀ s, P s → refresh s = s) (keeps : ∀ s a t, P s → step s a = some t → P t) :
    ∀ (ls : List (List α)) {s : σ}, P s →
      ls.foldlM (fun s batch => batch.foldlM step (refresh s)) s = ls.flatten.foldlM step s
  | [], _, _ => rfl
  | batch :: ls, s, hs => by
    rw [List.foldlM_cons, List.flatten_cons, List.foldlM_append, same s hs]
    cases h : batch.foldlM step s with
    | none => rfl
    | some t => exact foldlM_flatten same keeps ls (foldlM_keeps keeps batch hs h)

/-- One pass, if the refresh leaves every state that is met as it is. -/
theorem runBatches_eq {refresh : σ → σ} {step : σ → α → Option σ} {P : σ → Prop} (same : ∀ s, P s → refresh s = s)
    (keeps : ∀ s a t, P s → step s a = some t → P t) {size : Nat} (h : 0 < size) (l : List α) {s : σ} (hs : P s) :
    runBatches refresh step size l s = l.foldlM step s := by
  rw [runBatches, foldlM_flatten same keeps _ hs, flatten_batches h]

end Batches
