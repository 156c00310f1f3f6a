/-
Runs of a labelled transition relation, and the induction rules the
state machines of this development are verified with.

`Reachable.invariant`: what holds at the start and every step keeps holds
wherever the system gets. `Run.posts_iff`: for a property that every step
meeting a condition keeps and every other step breaks, a run stays in the
property exactly when each of its steps meets the condition.
-/
import Mathlib.Data.List.Basic
import Mathlib.Data.List.Induction
import Mathlib.Tactic.ByContra

namespace Transition

variable {σ α : Type*}

/-- A step taken: the state before it, its label, the state after it. -/
structure Move (σ α : Type*) where
  pre : σ
  label : α
  post : σ

/-- `Run step s₀ ms s`: the moves `ms`, in order, take `s₀` to `s`. -/
inductive Run (step : σ → α → σ → Prop) (s₀ : σ) : List (Move σ α) → σ → Prop
  | nil : Run step s₀ [] s₀
  | snoc {ms s a t} : Run step s₀ ms s → step s a t → Run step s₀ (ms ++ [⟨s, a, t⟩]) t

/-- Some run ends in `s`. -/
def Reachable (step : σ → α → σ → Prop) (s₀ s : σ) : Prop := ∃ ms, Run step s₀ ms s

variable {step : σ → α → σ → Prop} {s₀ : σ}

theorem Reachable.refl : Reachable step s₀ s₀ := ⟨[], .nil⟩

theorem Reachable.tail {s t : σ} {a : α} (h : Reachable step s₀ s) (hs : step s a t) :
    Reachable step s₀ t := by
  obtain ⟨ms, hr⟩ := h
  exact ⟨_, hr.snoc hs⟩

theorem Run.mono {step' : σ → α → σ → Prop} {ms : List (Move σ α)} {s : σ} (h : Run step s₀ ms s)
    (hm : ∀ s a t, step s a t → step' s a t) : Run step' s₀ ms s := by
  induction h with
  | nil => exact .nil
  | snoc _ hs ih => exact ih.snoc (hm _ _ _ hs)

/-- A run whose steps all meet a condition is one of the system that takes no
other steps. -/
theorem Run.restrict {C : σ → α → Prop} {ms : List (Move σ α)} {s : σ} (h : Run step s₀ ms s)
    (hC : ∀ m ∈ ms, C m.pre m.label) : Run (fun s a t => step s a t ∧ C s a) s₀ ms s := by
  induction h with
  | nil => exact .nil
  | @snoc ms s a t _ hs ih =>
    exact (ih fun m hm => hC m (List.mem_append_left _ hm)).snoc ⟨hs, hC ⟨s, a, t⟩ (by simp)⟩

/-- The run of a deterministic system that takes the labels `as` in turn. -/
theorem Run.foldl (f : σ → α → σ) (s₀ : σ) (as : List α) :
    ∃ ms, Run (fun s a t => t = f s a) s₀ ms (as.foldl f s₀) := by
  induction as using List.reverseRecOn with
  | nil => exact ⟨[], .nil⟩
  | append_singleton as a ih =>
    obtain ⟨ms, h⟩ := ih
    rw [List.foldl_append]
    exact ⟨_, h.snoc rfl⟩

/-- The run of a deterministic system that takes the labels `as` in turn, each
only if it meets a condition. -/
theorem Run.foldlM_checked (f : σ → α → Option σ) (C : σ → α → Prop) [∀ s a, Decidable (C s a)] (s₀ : σ)
    (as : List α) {s : σ} (h : as.foldlM (fun s a => if C s a then f s a else none) s₀ = some s) :
    ∃ ms, Run (fun s a t => f s a = some t) s₀ ms s ∧ ∀ m ∈ ms, C m.pre m.label := by
  induction as using List.reverseRecOn generalizing s with
  | nil =>
    cases h
    exact ⟨[], .nil, fun m hm => absurd hm List.not_mem_nil⟩
  | append_singleton as a ih =>
    rw [List.foldlM_append, Option.bind_eq_bind, Option.bind_eq_some_iff] at h
    obtain ⟨t, ht, hs⟩ := h
    obtain ⟨ms, hr, hc⟩ := ih ht
    have hstep : (if C t a then f t a else none) = some s := by
      simpa using hs
    obtain ⟨ha, hs⟩ := Option.ite_none_right_eq_some.1 hstep
    refine ⟨_, hr.snoc hs, fun m hm => ?_⟩
    rcases List.mem_append.1 hm with hm | hm
    · exact hc m hm
    · obtain rfl := List.mem_singleton.1 hm
      exact ha

/-- The same without a condition. -/
theorem Run.foldlM (f : σ → α → Option σ) (s₀ : σ) (as : List α) {s : σ} (h : as.foldlM f s₀ = some s) :
    ∃ ms, Run (fun s a t => f s a = some t) s₀ ms s := by
  have hchecked : as.foldlM (fun s a => if True then f s a else none) s₀ = some s := by simpa using h
  obtain ⟨ms, hr, -⟩ := Run.foldlM_checked f (fun _ _ => True) s₀ as hchecked
  exact ⟨ms, hr⟩

/-- The invariant rule. -/
theorem Reachable.invariant (I : σ → Prop) (h₀ : I s₀) (hstep : ∀ s a t, I s → step s a t → I t)
    {s : σ} (h : Reachable step s₀ s) : I s := by
  obtain ⟨ms, hr⟩ := h
  induction hr with
  | nil => exact h₀
  | snoc _ hs ih => exact hstep _ _ _ ih hs

/-- Each move of a run is a step taken from a reachable state. -/
theorem Run.mem {ms : List (Move σ α)} {s : σ} (h : Run step s₀ ms s) :
    ∀ m ∈ ms, Reachable step s₀ m.pre ∧ step m.pre m.label m.post := by
  induction h with
  | nil => intro m hm; cases hm
  | @snoc ms s a t hr hs ih =>
    intro m hm
    rcases List.mem_append.1 hm with hm | hm
    · exact ih m hm
    · obtain rfl := List.mem_singleton.1 hm
      exact ⟨⟨ms, hr⟩, hs⟩

/-- What follows a move of a run is a run from the state after it. -/
theorem Run.after {ms : List (Move σ α)} {s : σ} (h : Run step s₀ ms s) {before after : List (Move σ α)}
    {m : Move σ α} (he : ms = before ++ m :: after) : Run step m.post after s := by
  induction h generalizing after with
  | nil => simp at he
  | @snoc ms s a t _ hs ih =>
    rcases List.eq_nil_or_concat' after with rfl | ⟨after', last, rfl⟩
    · obtain ⟨-, hm⟩ := List.append_inj' he rfl
      obtain rfl := List.singleton_injective hm
      exact .nil
    · rw [← List.cons_append, ← List.append_assoc] at he
      obtain ⟨hms, hlast⟩ := List.append_inj' he rfl
      obtain rfl := List.singleton_injective hlast
      exact (ih hms).snoc hs

/-- What each step that meets a condition keeps holds all along a run whose
steps meet it. -/
theorem Run.posts_of (I : σ → Prop) (C : σ → α → Prop) (h₀ : I s₀) (hstep : ∀ s a t, I s → step s a t → C s a → I t)
    {ms : List (Move σ α)} {s : σ} (h : Run step s₀ ms s) (hC : ∀ m ∈ ms, C m.pre m.label) :
    (∀ m ∈ ms, I m.post) ∧ I s := by
  induction h with
  | nil => exact ⟨fun m hm => absurd hm List.not_mem_nil, h₀⟩
  | @snoc ms s a t _ hs ih =>
    obtain ⟨hposts, hi⟩ := ih fun m hm => hC m (List.mem_append_left _ hm)
    have ht := hstep s a t hi hs (hC ⟨s, a, t⟩ (by simp))
    refine ⟨fun m hm => ?_, ht⟩
    rcases List.mem_append.1 hm with hm | hm
    · exact hposts m hm
    · rw [List.mem_singleton.1 hm]
      exact ht

/-! ## Conditions on the run so far -/

/-- Each move of the run meets `C`, which may look at the moves before it. -/
def Meets (C : List (Move σ α) → σ → α → Prop) (ms : List (Move σ α)) : Prop :=
  ∀ before m after, ms = before ++ m :: after → C before m.pre m.label

theorem meets_concat {C : List (Move σ α) → σ → α → Prop} {ms : List (Move σ α)} {m : Move σ α} :
    Meets C (ms ++ [m]) ↔ Meets C ms ∧ C ms m.pre m.label := by
  constructor
  · intro h
    exact ⟨fun before m' after he => h before m' (after ++ [m]) (by rw [he]; simp), h ms m [] rfl⟩
  · rintro ⟨h, hm⟩ before m' after he
    rcases List.eq_nil_or_concat' after with rfl | ⟨after', last, rfl⟩
    · obtain ⟨rfl, hm'⟩ := List.append_inj' he rfl
      obtain rfl : m = m' := by simpa using hm'
      exact hm
    · rw [← List.cons_append, ← List.append_assoc] at he
      exact h before m' after' (List.append_inj' he rfl).1

theorem Meets.imp {C D : List (Move σ α) → σ → α → Prop} {ms : List (Move σ α)} (h : Meets C ms)
    (himp : ∀ before, ∀ m ∈ ms, C before m.pre m.label → D before m.pre m.label) : Meets D ms :=
  fun before m after he => himp before m (he ▸ List.mem_append_right _ List.mem_cons_self) (h before m after he)

/-- A property `P`, carried by an invariant `I` that each step meeting `C`
keeps, and broken by each step that does not meet `C`, holds all along a run
exactly when every step of the run meets `C`. The invariant and the condition
may look at the moves before. -/
theorem Run.posts_iff_meets (I : List (Move σ α) → σ → Prop) (P : σ → Prop) (C : List (Move σ α) → σ → α → Prop)
    (h₀ : I [] s₀) (hP : ∀ ms s, I ms s → P s)
    (hstep : ∀ ms s a t, I ms s → step s a t → C ms s a → I (ms ++ [⟨s, a, t⟩]) t)
    (hbad : ∀ ms s a t, I ms s → step s a t → ¬ C ms s a → ¬ P t) {ms : List (Move σ α)} {s : σ}
    (h : Run step s₀ ms s) : (∀ m ∈ ms, P m.post) ↔ Meets C ms := by
  suffices hs : ((∀ m ∈ ms, P m.post) ↔ Meets C ms) ∧ (Meets C ms → I ms s) from hs.1
  induction h with
  | nil => exact ⟨⟨fun _ before m after he => by simp at he, by simp⟩, fun _ => h₀⟩
  | @snoc ms s a t _ hs ih =>
    obtain ⟨hiff, hi⟩ := ih
    refine ⟨?_, fun hm => hstep ms s a t (hi (meets_concat.1 hm).1) hs (meets_concat.1 hm).2⟩
    rw [meets_concat]
    constructor
    · intro hall
      have hm := hiff.1 fun m hm => hall m (List.mem_append_left _ hm)
      refine ⟨hm, ?_⟩
      by_contra hn
      exact hbad ms s a t (hi hm) hs hn (hall ⟨s, a, t⟩ (by simp))
    · rintro ⟨hm, hc⟩ m hmem
      rcases List.mem_append.1 hmem with hmem | hmem
      · exact hiff.2 hm m hmem
      · rw [List.mem_singleton.1 hmem]
        exact hP _ t (hstep ms s a t (hi hm) hs hc)

/-- The same, where only the state before the step matters. -/
theorem Run.posts_iff (I P : σ → Prop) (C : σ → α → Prop) (h₀ : I s₀) (hP : ∀ s, I s → P s)
    (hstep : ∀ s a t, I s → step s a t → C s a → I t)
    (hbad : ∀ s a t, I s → step s a t → ¬ C s a → ¬ P t) {ms : List (Move σ α)} {s : σ}
    (h : Run step s₀ ms s) : (∀ m ∈ ms, P m.post) ↔ ∀ m ∈ ms, C m.pre m.label := by
  rw [h.posts_iff_meets (fun _ => I) P (fun _ => C) h₀ (fun _ => hP) (fun _ => hstep) (fun _ => hbad)]
  constructor
  · intro hm m hmem
    obtain ⟨before, after, he⟩ := List.append_of_mem hmem
    exact hm before m after he
  · rintro hall before m after rfl
    exact hall m (by simp)

end Transition
