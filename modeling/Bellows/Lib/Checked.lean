/-
What the success of a computation that may fail says of its parts.
-/
import Mathlib.Data.List.Destutter

namespace Checked

variable {ε α β σ : Type}

theorem bind_eq_ok {x : Except ε α} {f : α → Except ε β} {b : β} :
    (x >>= f) = .ok b ↔ ∃ a, x = .ok a ∧ f a = .ok b := by
  cases x <;> simp [bind, Except.bind]

theorem pure_eq_ok {a b : α} : (pure a : Except ε α) = .ok b ↔ a = b := by
  simp [pure, Except.pure]

theorem map_eq_ok {x : Except ε α} {f : α → β} {b : β} : x.map f = .ok b ↔ ∃ a, x = .ok a ∧ f a = b := by
  cases x <;> simp [Except.map]

/-- Fails with a reason, if there is one. -/
def refuse : Option ε → Except ε Unit
  | some reason => throw reason
  | none => return ()

@[simp] theorem refuse_eq_ok {reason : Option ε} {u : Unit} : refuse reason = .ok u ↔ reason = none := by
  cases reason <;> simp [refuse, throw, throwThe, MonadExceptOf.throw, pure, Except.pure]

def refuseIf (p : Prop) [Decidable p] (reason : ε) : Except ε Unit := if p then throw reason else return ()

@[simp] theorem refuseIf_eq_ok {p : Prop} [Decidable p] {reason : ε} {u : Unit} :
    refuseIf p reason = .ok u ↔ ¬ p := by
  by_cases h : p <;> simp [refuseIf, h, throw, throwThe, MonadExceptOf.throw, pure, Except.pure]

/-- `ok_or` -/
def okOr (value : Option α) (reason : ε) : Except ε α := value.elim (throw reason) pure

@[simp] theorem okOr_eq_ok {value : Option α} {reason : ε} {a : α} : okOr value reason = .ok a ↔ value = some a := by
  cases value <;> simp [okOr, throw, throwThe, MonadExceptOf.throw, pure, Except.pure]

/-- A list of checks is passed when each of them is. -/
theorem forM_eq_ok {f : α → Except ε Unit} : ∀ {l : List α}, l.forM f = .ok () ↔ ∀ a ∈ l, f a = .ok ()
  | [] => by simp [pure, Except.pure]
  | a :: l => by
    rw [List.forM_eq_forM, List.forM_cons, bind_eq_ok, List.forall_mem_cons, ← forM_eq_ok (l := l)]
    exact ⟨fun ⟨_, ha, hl⟩ => ⟨ha, hl⟩, fun ⟨ha, hl⟩ => ⟨⟨⟩, ha, hl⟩⟩

/-- A fold succeeds when each element may be folded in, whatever was before. -/
theorem foldlM_isOk_iff {f : σ → α → Except ε σ} {P : α → Prop} (step : ∀ s a, (∃ t, f s a = .ok t) ↔ P a) :
    ∀ (l : List α) (s : σ), (∃ t, l.foldlM f s = .ok t) ↔ ∀ a ∈ l, P a
  | [], s => by simp [pure, Except.pure]
  | a :: l, s => by
    rw [List.foldlM_cons, List.forall_mem_cons, ← step s a]
    constructor
    · intro h
      obtain ⟨t, ht⟩ := h
      obtain ⟨u, hu, ht⟩ := bind_eq_ok.1 ht
      exact ⟨⟨u, hu⟩, (foldlM_isOk_iff step l u).1 ⟨t, ht⟩⟩
    · intro h
      obtain ⟨⟨u, hu⟩, hl⟩ := h
      obtain ⟨t, ht⟩ := (foldlM_isOk_iff step l u).2 hl
      exact ⟨t, bind_eq_ok.2 ⟨u, hu, ht⟩⟩

/-- The invariant rule of a fold, whose steps are those of the list. -/
theorem foldlM_keeps_mem {f : σ → α → Except ε σ} {Q : σ → Prop} :
    ∀ (l : List α), (∀ s, ∀ a ∈ l, ∀ t, f s a = .ok t → Q s → Q t) → ∀ {s t : σ}, l.foldlM f s = .ok t → Q s → Q t
  | [], _, s, t, h, hs => by
    rw [List.foldlM_nil, pure_eq_ok] at h
    exact h ▸ hs
  | a :: l, keeps, s, t, h, hs => by
    rw [List.foldlM_cons, bind_eq_ok] at h
    obtain ⟨u, hu, ht⟩ := h
    exact foldlM_keeps_mem l (fun s b hb => keeps s b (List.mem_cons_of_mem _ hb)) ht
      (keeps s a List.mem_cons_self u hu hs)

/-- The same, whatever the list. -/
theorem foldlM_keeps {f : σ → α → Except ε σ} {Q : σ → Prop} (keeps : ∀ s a t, f s a = .ok t → Q s → Q t)
    (l : List α) {s t : σ} (h : l.foldlM f s = .ok t) (hs : Q s) : Q t :=
  foldlM_keeps_mem l (fun s a _ => keeps s a) h hs

theorem foldlM_congr {f g : σ → α → Except ε σ} : ∀ {l : List α} {s : σ}, (∀ s, ∀ a ∈ l, f s a = g s a) →
    l.foldlM f s = l.foldlM g s
  | [], _, _ => rfl
  | a :: l, s, h => by
    obtain ⟨ha, hl⟩ : f s a = g s a ∧ ∀ s, ∀ b ∈ l, f s b = g s b :=
      ⟨h s a List.mem_cons_self, fun s b hb => h s b (List.mem_cons_of_mem a hb)⟩
    rw [List.foldlM_cons, List.foldlM_cons, ha]
    exact congrArg _ (funext fun t => foldlM_congr hl)

/-- A fold fails with the errors of its steps. -/
theorem foldlM_ne_error {f : σ → α → Except ε σ} {e : ε} : ∀ {l : List α} {s : σ},
    (∀ s, ∀ a ∈ l, f s a ≠ .error e) → l.foldlM f s ≠ .error e
  | [], _, _ => by simp [pure, Except.pure]
  | a :: l, s, h => by
    rw [List.foldlM_cons]
    cases hstep : f s a with
    | error other => exact fun heq => h s a List.mem_cons_self (hstep.trans heq)
    | ok t => exact foldlM_ne_error fun t b hb => h t b (List.mem_cons_of_mem _ hb)

/-- What each step establishes of its element, and every step keeps of the
others, holds of all elements after the fold. -/
theorem forall_of_foldlM {f : σ → α → Except ε σ} {P : α → σ → Prop}
    (establishes : ∀ s a t, f s a = .ok t → P a t)
    (keeps : ∀ s a t b, f s a = .ok t → P b s → P b t) :
    ∀ (l : List α) {s t : σ}, l.foldlM f s = .ok t → ∀ a ∈ l, P a t
  | a :: l, s, t, h, b, hb => by
    rw [List.foldlM_cons, bind_eq_ok] at h
    obtain ⟨u, hu, ht⟩ := h
    rcases List.mem_cons.1 hb with rfl | hb
    · exact foldlM_keeps (fun s a t => keeps s a t b) l ht (establishes s b u hu)
    · exact forall_of_foldlM establishes keeps l ht b hb

/-- A fold that appends what each element yields: all of them yield something,
and the result holds nothing else. -/
theorem mem_foldlM_append {f : α → Except ε (List β)} : ∀ {l : List α} {s t : List β},
    l.foldlM (fun s a => do return s ++ (← f a)) s = .ok t →
      (∀ a ∈ l, ∃ bs, f a = .ok bs ∧ ∀ b ∈ bs, b ∈ t) ∧ ∀ b ∈ t, b ∈ s ∨ ∃ a ∈ l, ∃ bs, f a = .ok bs ∧ b ∈ bs
  | [], s, t, h => by
    rw [List.foldlM_nil, pure_eq_ok] at h
    exact ⟨by simp, fun b hb => .inl (h ▸ hb)⟩
  | a :: l, s, t, h => by
    rw [List.foldlM_cons, bind_eq_ok] at h
    obtain ⟨u, hu, ht⟩ := h
    obtain ⟨bs, hbs, hu⟩ := bind_eq_ok.1 hu
    obtain rfl := pure_eq_ok.1 hu
    have ⟨hall, honly⟩ := mem_foldlM_append ht
    have hkept : ∀ b ∈ s ++ bs, b ∈ t := fun b hb =>
      foldlM_keeps (Q := fun u => b ∈ u) (fun _ _ _ hs hin => by
        obtain ⟨cs, -, hv⟩ := bind_eq_ok.1 hs
        exact pure_eq_ok.1 hv ▸ List.mem_append_left cs hin) l ht hb
    refine ⟨List.forall_mem_cons.2 ⟨⟨bs, hbs, fun b hb => hkept b (List.mem_append_right _ hb)⟩, hall⟩, fun b hb => ?_⟩
    rcases honly b hb with hin | ⟨c, hc, cs, hcs, hin⟩
    · rcases List.mem_append.1 hin with hs | hin
      · exact .inl hs
      · exact .inr ⟨a, List.mem_cons_self, bs, hbs, hin⟩
    · exact .inr ⟨c, List.mem_cons_of_mem _ hc, cs, hcs, hin⟩

/-- A list without its repetitions still has an element that stands for each. -/
theorem exists_mem_destutter {κ : Type} [DecidableEq κ] (key : α → κ) (l : List α) {a : α} (h : a ∈ l) :
    ∃ b ∈ l.destutter (fun a b => key a ≠ key b), key b = key a := by
  suffices hs : ∀ (l : List α) (first a : α), a ∈ first :: l →
      ∃ b ∈ l.destutter' (fun a b => key a ≠ key b) first, key b = key a by
    cases l with
    | nil => simp at h
    | cons first l => exact hs l first a h
  intro l
  induction l with
  | nil => intro first a ha; exact ⟨a, by simpa using ha, rfl⟩
  | cons next l ih =>
    intro first a ha
    by_cases hne : key first ≠ key next
    · rw [List.destutter'_cons, if_pos hne]
      rcases List.mem_cons.1 ha with rfl | ha
      · exact ⟨a, by simp, rfl⟩
      · obtain ⟨b, hb, hk⟩ := ih next a ha
        exact ⟨b, List.mem_cons_of_mem _ hb, hk⟩
    · rw [List.destutter'_cons, if_neg hne]
      -- `next` is dropped: `first`, kept, stands for it
      rcases List.mem_cons.1 ha with rfl | ha
      · exact ih a a (by simp)
      rcases List.mem_cons.1 ha with rfl | ha
      · obtain ⟨b, hb, hk⟩ := ih first first (by simp)
        exact ⟨b, hb, hk.trans (not_ne_iff.1 hne)⟩
      · exact ih first a (List.mem_cons_of_mem _ ha)

end Checked
