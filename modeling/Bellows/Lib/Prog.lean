/-
Programs that change a state and may fail on the way: what they changed before
they failed stays changed. `Ensures` says what holds of an outcome, whichever
it is, with a rule for each way to build a program.
-/
import Mathlib.Tactic.Common

/-- A program over the states `σ`, failing with an `ε`. -/
abbrev Prog (σ ε α : Type) := ExceptT ε (StateM σ) α

namespace Prog

variable {σ ε α β : Type}

/-- The outcome from a state. -/
def outcome (x : Prog σ ε α) (s : σ) : Except ε α × σ := (ExceptT.run x).run s

@[simp] theorem outcome_pure (a : α) (s : σ) : outcome (pure a : Prog σ ε α) s = (.ok a, s) := rfl

@[simp] theorem outcome_throw (e : ε) (s : σ) : outcome (throw e : Prog σ ε α) s = (.error e, s) := rfl

@[simp] theorem outcome_get (s : σ) : outcome (get : Prog σ ε σ) s = (.ok s, s) := rfl

@[simp] theorem outcome_set (t s : σ) : outcome (set t : Prog σ ε PUnit) s = (.ok ⟨⟩, t) := rfl

@[simp] theorem outcome_modify (f : σ → σ) (s : σ) : outcome (modify f : Prog σ ε PUnit) s = (.ok ⟨⟩, f s) := rfl

/-- What follows runs if there was no failure. -/
theorem outcome_bind (x : Prog σ ε α) (f : α → Prog σ ε β) (s : σ) : outcome (x >>= f) s =
    match outcome x s with
    | (.ok a, t) => outcome (f a) t
    | (.error e, t) => (.error e, t) := by
  simp only [outcome, ExceptT.run_bind, StateT.run_bind]
  cases h : (ExceptT.run x).run s with
  | mk r t => cases r <;> rfl

/-- After a failure the handler goes on from where the program got. -/
theorem outcome_tryCatch (x : Prog σ ε α) (handle : ε → Prog σ ε α) (s : σ) : outcome (tryCatch x handle) s =
    match outcome x s with
    | (.ok a, t) => (.ok a, t)
    | (.error e, t) => outcome (handle e) t := by
  have hrun : outcome (tryCatch x handle) s = ((ExceptT.run x) >>= fun r => match r with
      | .ok a => (pure (.ok a) : StateM σ (Except ε α))
      | .error e => ExceptT.run (handle e)).run s := rfl
  rw [hrun, StateT.run_bind]
  unfold outcome
  cases h : (ExceptT.run x).run s with
  | mk r t => cases r <;> rfl

/-! ## What holds of an outcome -/

/-- `Q` holds of the outcome of `x` from `s`, a failure or not. -/
def Ensures (x : Prog σ ε α) (s : σ) (Q : Except ε α → σ → Prop) : Prop := Q (outcome x s).1 (outcome x s).2

variable {x : Prog σ ε α} {f : α → Prog σ ε β} {s : σ}

theorem Ensures.mono {Q R : Except ε α → σ → Prop} (h : Ensures x s Q) (hQR : ∀ r t, Q r t → R r t) : Ensures x s R :=
  hQR _ _ h

theorem Ensures.and {Q R : Except ε α → σ → Prop} (h : Ensures x s Q) (h' : Ensures x s R) :
    Ensures x s fun r t => Q r t ∧ R r t := ⟨h, h'⟩

/-- The rule of composition. -/
theorem ensures_bind {Q : Except ε β → σ → Prop} : Ensures (x >>= f) s Q ↔ Ensures x s fun r t =>
    match r with
    | .ok a => Ensures (f a) t Q
    | .error e => Q (.error e) t := by
  unfold Ensures
  rw [outcome_bind]
  cases h : outcome x s with
  | mk r t => cases r <;> rfl

theorem ensures_bind_of_ok {a : α} {t : σ} {Q : Except ε β → σ → Prop} (h : outcome x s = (.ok a, t)) :
    Ensures (x >>= f) s Q ↔ Ensures (f a) t Q := by
  rw [ensures_bind, Ensures, h]

theorem ensures_bind_of_error {e : ε} {t : σ} {Q : Except ε β → σ → Prop} (h : outcome x s = (.error e, t)) :
    Ensures (x >>= f) s Q ↔ Q (.error e) t := by
  rw [ensures_bind, Ensures, h]

theorem ensures_get_bind {f : σ → Prog σ ε β} {Q : Except ε β → σ → Prop} :
    Ensures (get >>= f) s Q ↔ Ensures (f s) s Q := Iff.rfl

theorem ensures_set_bind {t : σ} {f : PUnit → Prog σ ε β} {Q : Except ε β → σ → Prop} :
    Ensures (set t >>= f) s Q ↔ Ensures (f ⟨⟩) t Q := Iff.rfl

theorem ensures_modify_bind {g : σ → σ} {f : PUnit → Prog σ ε β} {Q : Except ε β → σ → Prop} :
    Ensures (modify g >>= f) s Q ↔ Ensures (f ⟨⟩) (g s) Q := Iff.rfl

theorem Ensures.bind {Q : Except ε α → σ → Prop} {R : Except ε β → σ → Prop} (h : Ensures x s Q)
    (herror : ∀ e t, Q (.error e) t → R (.error e) t) (hok : ∀ a t, Q (.ok a) t → Ensures (f a) t R) :
    Ensures (x >>= f) s R := by
  rw [ensures_bind]
  refine h.mono fun r t hq => ?_
  cases r with
  | ok a => exact hok a t hq
  | error e => exact herror e t hq

/-- The rule of a handler. -/
theorem ensures_tryCatch {handle : ε → Prog σ ε α} {Q : Except ε α → σ → Prop} :
    Ensures (tryCatch x handle) s Q ↔ Ensures x s fun r t =>
      match r with
      | .ok a => Q (.ok a) t
      | .error e => Ensures (handle e) t Q := by
  unfold Ensures
  rw [outcome_tryCatch]
  cases h : outcome x s with
  | mk r t => cases r <;> rfl

/-- What every step keeps, the steps of a list keep. -/
theorem ensures_forM {step : β → Prog σ ε PUnit} {I : σ → Prop} {E : ε → σ → Prop} : ∀ (l : List β) {s : σ}, I s →
    (∀ b ∈ l, ∀ s, I s → Ensures (step b) s fun r t => match r with
      | .ok _ => I t
      | .error e => E e t) →
    Ensures (l.forM step) s fun r t => match r with
      | .ok _ => I t
      | .error e => E e t
  | [], _, hs, _ => hs
  | b :: l, s, hs, hstep => by
    obtain ⟨hb, hl⟩ := List.forall_mem_cons.1 hstep
    exact (hb s hs).bind (fun _ _ h => h) fun _ t ht => ensures_forM l ht hl

/-- What every step keeps, failed or not, the steps of a list keep. -/
theorem ensures_forM_keeps {step : β → Prog σ ε PUnit} {I : σ → Prop} : ∀ (l : List β) {s : σ}, I s →
    (∀ b ∈ l, ∀ s, I s → Ensures (step b) s fun _ t => I t) → Ensures (l.forM step) s fun _ t => I t := by
  intro l s hs hstep
  have hall := ensures_forM (E := fun _ t => I t) l hs fun b hb s hi => (hstep b hb s hi).mono fun r t ht => by
    cases r <;> exact ht
  exact hall.mono fun r t ht => by cases r <;> exact ht

/-! ## What a program keeps -/

/-- What holds before `x` holds after it, failed or not. -/
def Keeps (I : σ → Prop) (x : Prog σ ε α) : Prop := ∀ s, I s → Ensures x s fun _ t => I t

variable {I : σ → Prop}

theorem keeps_pure (a : α) : Keeps I (pure a : Prog σ ε α) := fun _ hs => hs

theorem keeps_throw (e : ε) : Keeps I (throw e : Prog σ ε α) := fun _ hs => hs

theorem keeps_modify {f : σ → σ} (h : ∀ s, I s → I (f s)) : Keeps I (modify f : Prog σ ε PUnit) := h

theorem Keeps.bind (hx : Keeps I x) (hf : ∀ a, Keeps I (f a)) : Keeps I (x >>= f) := fun s hs =>
  Ensures.bind (hx s hs) (fun _ _ h => h) fun a t ht => hf a t ht

theorem keeps_forM {step : β → Prog σ ε PUnit} {l : List β} (h : ∀ b ∈ l, Keeps I (step b)) : Keeps I (l.forM step) :=
  fun _ hs => ensures_forM_keeps l hs h

end Prog
