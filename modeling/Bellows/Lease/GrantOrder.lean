/-
Grants follow the queue's order.

`order` rearranges the requests waiting for a machine, whatever was moved.
Where none was moved it is sorted by the source's key, so the first request
the reservation lets through is the least such request. The loop in `grant`
takes requests of other machines out of the queue before it reaches a
machine, which changes nothing there (`Untouched`); and a round leaves its
machine with nothing to give, which no later round undoes (`Settled`).
-/
import Bellows.Lease.SchedulerInv

namespace Bellows.Lease

namespace Scheduler

/-! ## The sort key -/

theorem Before.refl (s : Scheduler) (a : Waiting) : s.Before a a := by simp [Before]

instance (s : Scheduler) : Std.Total s.Before where
  total a b := by simp only [Before]; omega

instance (s : Scheduler) : IsTrans Waiting s.Before where
  trans a b c hab hbc := by simp only [Before] at hab hbc ⊢; omega

/-- No request waiting for `machine` was moved by an administrator. -/
def Unmoved (s : Scheduler) (machine : String) : Prop :=
  ∀ w ∈ s.waiting, w.request.machine = machine → w.manualPosition = none

theorem order_of_unmoved {s : Scheduler} {machine : String} (h : s.Unmoved machine) :
    s.order machine = (s.waitingFor machine).insertionSort s.Before := by
  have hnone : s.waiting.filter (fun w => w.request.machine == machine && w.manualPosition.isNone) =
      s.waitingFor machine := by
    refine List.filter_congr fun w hw => ?_
    by_cases hm : w.request.machine = machine
    · simp [h w hw hm, hm]
    · simp [hm]
  have hsome : s.waiting.filter (fun w => w.request.machine == machine && w.manualPosition.isSome) =
      [] := by
    rw [List.filter_eq_nil_iff]
    intro w hw hp
    simp only [Bool.and_eq_true, beq_iff_eq] at hp
    rw [h w hw hp.1] at hp
    simp at hp
  simp only [order, hnone, hsome, List.insertionSort_nil, List.foldl_nil]

/-- The first request a test lets through, of a list sorted by `r`, is
before every other it lets through. -/
theorem find?_least {α : Type} {r : α → α → Prop} (hr : ∀ a, r a a) {p : α → Bool} {l : List α} {a : α}
    (hs : l.Pairwise r) (h : l.find? p = some a) : ∀ b ∈ l, p b = true → r a b := by
  obtain ⟨-, as, bs, rfl, has⟩ := List.find?_eq_some_iff_append.1 h
  intro b hb hp
  rcases List.mem_append.1 hb with hb | hb
  · exact absurd hp (by simpa using has b hb)
  · rcases List.mem_cons.1 hb with rfl | hb
    · exact hr b
    · exact (List.pairwise_cons.1 (List.pairwise_append.1 hs).2.1).1 b hb

/-- The least request for `machine` its reservation lets through. -/
structure LeastEligible (s : Scheduler) (machine : String) (now : Nat) (w : Waiting) : Prop where
  waits : w ∈ s.waiting
  runsOn : w.request.machine = machine
  letThrough : allowed (s.reservation machine now) w = true
  least : ∀ v ∈ s.waiting, v.request.machine = machine →
    allowed (s.reservation machine now) v = true → s.Before w v

theorem eligible_least {s : Scheduler} {machine : String} {now : Nat} {w : Waiting}
    (hu : s.Unmoved machine) (h : s.eligible machine now = some w) :
    s.LeastEligible machine now w := by
  obtain ⟨hw, hm, ha⟩ := eligible_some h
  refine ⟨hw, hm, ha, fun v hv hvm hva => ?_⟩
  have hsorted : (s.order machine).Pairwise s.Before := by
    rw [order_of_unmoved hu]; exact List.pairwise_insertionSort _ _
  exact find?_least (Before.refl s) hsorted h v (mem_order.2 ⟨hv, hvm⟩) hva

/-! ## A machine the loop has not reached -/

/-- For `machine`, `s'` is as `s` was: the same requests wait for it, in the
same order, under the same reservation, and it is as free. -/
structure Untouched (s s' : Scheduler) (machine : String) : Prop where
  waitingFor : s'.waitingFor machine = s.waitingFor machine
  holder : s'.holders.lookup machine = s.holders.lookup machine
  paused : s'.paused = s.paused
  reserved : s'.reserved = s.reserved
  mergeQueue : s'.mergeQueue = s.mergeQueue

theorem Untouched.refl (s : Scheduler) (machine : String) : Untouched s s machine :=
  ⟨rfl, rfl, rfl, rfl, rfl⟩

theorem order_eq (s : Scheduler) (machine : String) : s.order machine =
    (((s.waitingFor machine).filter (·.manualPosition.isSome)).insertionSort MovedBefore).foldl
      insertMoved (((s.waitingFor machine).filter (·.manualPosition.isNone)).insertionSort s.Before) := by
  simp only [order, waitingFor, List.filter_filter, Bool.and_comm]

theorem Untouched.before {s s' : Scheduler} {machine : String} (h : Untouched s s' machine)
    (a b : Waiting) : s'.Before a b ↔ s.Before a b := by
  simp only [Before, queuePosition, h.mergeQueue]

theorem insertionSort_congr {α : Type} {r r' : α → α → Prop} [DecidableRel r] [DecidableRel r']
    (h : ∀ a b, r a b ↔ r' a b) (l : List α) : l.insertionSort r = l.insertionSort r' := by
  have hinsert : ∀ (a : α) (l : List α), l.orderedInsert r a = l.orderedInsert r' a := by
    intro a l
    induction l with
    | nil => rfl
    | cons b l ih => simp only [List.orderedInsert_cons, h a b, ih]
  induction l with
  | nil => rfl
  | cons a l ih => rw [List.insertionSort_cons, List.insertionSort_cons, ih, hinsert]

theorem Untouched.order {s s' : Scheduler} {machine : String} (h : Untouched s s' machine) :
    s'.order machine = s.order machine := by
  simp only [order_eq, h.waitingFor, insertionSort_congr h.before]

theorem Untouched.eligible {s s' : Scheduler} {machine : String} (h : Untouched s s' machine)
    (now : Nat) : s'.eligible machine now = s.eligible machine now := by
  simp only [Scheduler.eligible, reservation, h.order, h.reserved]

theorem Untouched.free {s s' : Scheduler} {machine : String} (h : Untouched s s' machine) :
    s'.free machine = s.free machine := by
  simp only [Scheduler.free, h.holder, h.paused]

theorem Untouched.trans {s₁ s₂ s₃ : Scheduler} {machine : String} (h₁ : Untouched s₁ s₂ machine)
    (h₂ : Untouched s₂ s₃ machine) : Untouched s₁ s₃ machine :=
  ⟨h₂.waitingFor.trans h₁.waitingFor, h₂.holder.trans h₁.holder, h₂.paused.trans h₁.paused,
    h₂.reserved.trans h₁.reserved, h₂.mergeQueue.trans h₁.mergeQueue⟩

/-- An elementary grant touches its own machine alone. -/
theorem GrantStep.untouched {now : Nat} {s s' : Scheduler} {machine m : String} {g : Grant} {w : Waiting}
    (h : GrantStep now s s' machine g w) (hm : m ≠ machine) : Untouched s s' m where
  waitingFor := by
    obtain ⟨l₁, l₂, hs, hs'⟩ := h.granted.waiting
    have hw : w.request.machine = machine := (eligible_some h.eligible).2.1
    simp only [Scheduler.waitingFor, hs, hs', List.filter_append, List.filter_cons, hw,
      beq_iff_eq, hm.symm, if_false]
  holder := h.granted.lookup_old hm
  paused := h.granted.paused
  reserved := h.granted.reserved
  mergeQueue := h.granted.mergeQueue

theorem GrantStep.held {now : Nat} {s s' : Scheduler} {machine : String} {g : Grant} {w : Waiting}
    (h : GrantStep now s s' machine g w) :
    ∃ k, s'.holders.lookup machine = some k ∧ k.id = g.id := by
  obtain ⟨k, hk, hid, -⟩ := h.granted.lookup_new
  exact ⟨k, hk, hid.trans h.granted.grant.1.symm⟩

theorem GrantStep.not_free {now : Nat} {s s' : Scheduler} {machine : String} {g : Grant} {w : Waiting}
    (h : GrantStep now s s' machine g w) : ¬ s'.free machine = true := fun hf => by
  obtain ⟨k, hk, -⟩ := h.held
  rw [(free_iff.1 hf).1] at hk; cases hk

/-! ## A whole call of `grant` -/

/-- The grant gives a machine neither held nor paused to the request that is
first in its queue's order among those let through; without manual moves,
to the least of them. -/
structure InOrder (s : Scheduler) (now : Nat) (g : Grant) : Prop where
  unheld : s.holders.lookup g.machine = none
  unpaused : g.machine ∉ s.paused
  grantee : ∃ w, w.id = g.id ∧ s.eligible g.machine now = some w ∧
    (s.Unmoved g.machine → s.LeastEligible g.machine now w)

/-- Where the loop is: the machines granted so far are held, each in order,
and the others are as they were. -/
structure Round (now : Nat) (s s' : Scheduler) (gs : List Grant) : Prop where
  untouched : ∀ m, (∀ g ∈ gs, g.machine ≠ m) → Untouched s s' m
  held : ∀ g ∈ gs, ∃ k, s'.holders.lookup g.machine = some k ∧ k.id = g.id
  inOrder : ∀ g ∈ gs, s.InOrder now g

theorem Round.step {now : Nat} {s s₁ s₂ : Scheduler} {gs : List Grant} {machine : String} {g : Grant}
    {w : Waiting} (hr : Round now s s₁ gs) (h : GrantStep now s₁ s₂ machine g w) :
    Round now s s₂ (gs ++ [g]) := by
  obtain ⟨hid, hmachine, -⟩ := h.granted.grant
  have hfree := free_iff.1 h.free
  have hnew : ∀ g' ∈ gs, g'.machine ≠ machine := by
    rintro g' hg' rfl
    obtain ⟨k, hk, -⟩ := hr.held g' hg'
    rw [hfree.1] at hk; cases hk
  have hu := hr.untouched machine hnew
  refine ⟨fun m hm => ?_, fun g' hg' => ?_, fun g' hg' => ?_⟩
  · have hne : m ≠ machine := fun he => hm g (by simp) (hmachine.trans he.symm)
    exact (hr.untouched m fun g' hg' => hm g' (List.mem_append_left _ hg')).trans (h.untouched hne)
  · rcases List.mem_append.1 hg' with hg' | hg'
    · rw [h.granted.lookup_old (hnew g' hg')]; exact hr.held g' hg'
    · rw [List.mem_singleton.1 hg', hmachine]; exact h.held
  · rcases List.mem_append.1 hg' with hg' | hg'
    · exact hr.inOrder g' hg'
    · have hel : s.eligible machine now = some w := (hu.eligible now).symm.trans h.eligible
      rw [List.mem_singleton.1 hg']
      refine ⟨?_, ?_, w, hid.symm, ?_, ?_⟩ <;> rw [hmachine]
      · rw [← hu.holder]; exact hfree.1
      · rw [← hu.paused]; exact hfree.2
      · exact hel
      · exact fun hun => eligible_least hun hel

/-- Nothing to give `machine` to, or it is not free. -/
def Settled (s : Scheduler) (now : Nat) (machine : String) : Prop :=
  s.free machine = true → s.eligible machine now = none

theorem Settled.step {now : Nat} {s s' : Scheduler} {machine m : String} {g : Grant} {w : Waiting}
    (hs : s.Settled now m) (h : GrantStep now s s' machine g w) : s'.Settled now m := by
  intro hf
  by_cases hm : m = machine
  · subst hm
    exact absurd hf h.not_free
  · have hu := h.untouched hm
    rw [hu.eligible]
    exact hs (hu.free ▸ hf)

/-- After the loop every machine it went over is settled. -/
theorem foldl_settled {now : Nat} : ∀ (machines : List String) {s : Scheduler} {gs : List Grant},
    (∀ m ∈ machines, m ∈ s.config.machines) → s.WaitingNodup →
    ∀ m, (m ∈ machines ∨ s.Settled now m) →
      (machines.foldl (grantMachine now) (s, gs)).1.Settled now m
  | [], _, _, _, _, _, h => h.resolve_left List.not_mem_nil
  | machine :: machines, s, gs, hk, hn, m, h => by
    rw [List.foldl_cons]
    have hk' := fun m hm => hk m (List.mem_cons_of_mem _ hm)
    rcases grantMachine_cases hn gs machine with ⟨he, hset⟩ | ⟨s', g, w, he, hf, hel, hg⟩ <;> rw [he]
    · refine foldl_settled machines hk' hn m (h.elim (fun hm => ?_) .inr)
      exact (List.mem_cons.1 hm).elim (fun hm => .inr (hm ▸ hset)) .inl
    · have hstep : GrantStep now s s' machine g w := ⟨hk machine (by simp), hf, hel, hg⟩
      refine foldl_settled machines (by rw [hg.config]; exact hk') (hg.waitingNodup hn) m
        (h.elim (fun hm => ?_) fun hs => .inr (hs.step hstep))
      refine (List.mem_cons.1 hm).elim (fun hm => .inr fun hf' => ?_) .inl
      exact absurd hf' (hm ▸ hstep.not_free)

theorem Inv.grant_round {s : Scheduler} (hi : s.Inv) (now : Nat) :
    Round now s (s.grant now).1 (s.grant now).2 :=
  (s.grant_grants hi.waitingNodup now).invariant (Round now s) ⟨fun _ _ => .refl _ _, by simp, by simp⟩
    fun _ _ _ _ _ _ hr h => hr.step h

theorem Inv.grant_settled {s : Scheduler} (hi : s.Inv) (now : Nat) (machine : String) :
    (s.grant now).1.Settled now machine := by
  by_cases hm : machine ∈ s.config.machines
  · exact foldl_settled _ (fun _ h => h) hi.waitingNodup machine (.inl hm)
  · -- A machine that is not configured has nothing waiting for it.
    intro _
    rw [eligible_none]
    intro w hw hwm
    have hg := s.grant_grants hi.waitingNodup now
    have hsub : ∀ v ∈ (s.grant now).1.waiting, v ∈ s.waiting :=
      hg.invariant (fun s₁ _ => ∀ v ∈ s₁.waiting, v ∈ s.waiting) (fun _ h => h)
        fun _ _ _ _ _ _ ih h v hv => ih v (h.granted.sublist.subset hv)
    exact absurd (hwm ▸ (hi.waitingKnown w (hsub w hw)).2) hm

/-- What `order` and `grant` are promised to do in a scheduler's state. -/
structure FollowsQueue (s : Scheduler) : Prop where
  perm : ∀ machine, (s.order machine).Perm (s.waitingFor machine)
  inOrder : ∀ now, ∀ g ∈ (s.grant now).2, s.InOrder now g
  /-- No unpaused machine without a holder is left with a request let through. -/
  noneLeft : ∀ now machine, machine ∉ (s.grant now).1.paused →
    (s.grant now).1.holders.lookup machine = none → ∀ w ∈ (s.grant now).1.waiting,
    w.request.machine = machine → allowed ((s.grant now).1.reservation machine now) w = false

end Scheduler

/-- **Grants follow the queue's order**, in the state after any operations. -/
theorem run_followsQueue (config : Config) (seed : UInt64) (ops : List Op) :
    (Logged.run config seed ops).scheduler.FollowsQueue := by
  have hi := (Logged.run_inv config seed ops).scheduler
  exact ⟨fun machine => Scheduler.order_perm _ machine, fun now => (hi.grant_round now).inOrder,
    fun now machine hp hh =>
      Scheduler.eligible_none.1 (hi.grant_settled now machine (Scheduler.free_iff.2 ⟨hh, hp⟩))⟩

end Bellows.Lease
