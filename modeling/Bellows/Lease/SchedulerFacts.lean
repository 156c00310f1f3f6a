/-
What the scheduler's operations do, one lemma each: `order` rearranges the
requests waiting for a machine, `grant` is a sequence of elementary grants
(`Grants`), each taking one eligible request out of the queue (`GrantedTo`)
and none of them reaching the source's `expect`.
-/
import Mathlib.Data.List.Perm.Basic
import Bellows.Lease.Scheduler

namespace Bellows.Lease

namespace Scheduler

/-! ## The queue's order -/

/-- Requests waiting for `machine`, in arrival order. -/
def waitingFor (s : Scheduler) (machine : String) : List Waiting :=
  s.waiting.filter (·.request.machine == machine)

theorem insertMoved_perm (queue : List Waiting) (w : Waiting) : (insertMoved queue w).Perm (w :: queue) :=
  List.perm_insertIdx w queue (Nat.min_le_right _ _)

theorem foldl_insertMoved_perm (manual : List Waiting) :
    ∀ queue, (manual.foldl insertMoved queue).Perm (manual ++ queue) := by
  induction manual with
  | nil => exact fun queue => .refl queue
  | cons w manual ih =>
    intro queue
    rw [List.foldl_cons]
    refine (ih _).trans (((insertMoved_perm queue w).append_left manual).trans ?_)
    exact List.perm_middle

theorem order_perm (s : Scheduler) (machine : String) :
    (s.order machine).Perm (s.waitingFor machine) := by
  have hsplit := List.filter_append_perm (fun w : Waiting => w.manualPosition.isSome)
    (s.waitingFor machine)
  simp only [waitingFor, List.filter_filter] at hsplit
  refine (foldl_insertMoved_perm _ _).trans
    (((List.perm_insertionSort _ _).append (List.perm_insertionSort _ _)).trans (.trans (.of_eq ?_) hsplit))
  simp only [Bool.and_comm, Option.not_isSome]

theorem mem_order {s : Scheduler} {machine : String} {w : Waiting} :
    w ∈ s.order machine ↔ w ∈ s.waiting ∧ w.request.machine = machine := by
  rw [(s.order_perm machine).mem_iff]
  simp [waitingFor]

theorem eligible_some {s : Scheduler} {machine : String} {now : Nat} {w : Waiting}
    (h : s.eligible machine now = some w) : w ∈ s.waiting ∧ w.request.machine = machine ∧
      allowed (s.reservation machine now) w = true := by
  have hw := mem_order.1 (List.mem_of_find?_eq_some h)
  exact ⟨hw.1, hw.2, List.find?_some h⟩

theorem eligible_none {s : Scheduler} {machine : String} {now : Nat} :
    s.eligible machine now = none ↔ ∀ w ∈ s.waiting, w.request.machine = machine →
      allowed (s.reservation machine now) w = false := by
  simp only [eligible, List.find?_eq_none, Bool.not_eq_true, mem_order, and_imp]

theorem free_iff {s : Scheduler} {machine : String} :
    s.free machine = true ↔ s.holders.lookup machine = none ∧ machine ∉ s.paused := by
  simp [free]

/-! ## One elementary grant -/

/-- What giving `machine` to the waiting request `w` changes, and nothing else. -/
structure GrantedTo (s s' : Scheduler) (machine : String) (g : Grant) (w : Waiting) : Prop where
  waiting : ∃ l₁ l₂, s.waiting = l₁ ++ w :: l₂ ∧ s'.waiting = l₁ ++ l₂
  holders : ∃ h : Holder, s'.holders = s.holders.insert machine h ∧ h.id = w.id ∧
    h.machine = machine ∧ h.token = g.token
  unclaimed : s'.unclaimed = s.unclaimed.insert w.id g
  grant : g.id = w.id ∧ g.machine = machine ∧ g.nested = false
  config : s'.config = s.config
  nextId : s'.nextId = s.nextId
  nested : s'.nested = s.nested
  paused : s'.paused = s.paused
  reserved : s'.reserved = s.reserved
  mergeQueue : s'.mergeQueue = s.mergeQueue

/-- The `expect` in `grant` never fails: a waiting request can be granted. -/
theorem grantTo_isSome {s : Scheduler} (machine : String) {w : Waiting} (now : Nat)
    (hw : w ∈ s.waiting) : (s.grantTo machine w.id now).isSome = true := by
  have hsome : (s.waiting.findIdx? (·.id == w.id)).isSome = true := by
    rw [List.findIdx?_isSome, List.any_eq_true]
    exact ⟨w, hw, by simp⟩
  obtain ⟨i, hi⟩ := Option.isSome_iff_exists.1 hsome
  obtain ⟨hlt, -⟩ := List.findIdx?_eq_some_iff_getElem.1 hi
  simp [grantTo, hi, List.getElem?_eq_getElem hlt]

theorem grantTo_spec {s s' : Scheduler} {machine : String} {id now : Nat} {g : Grant}
    (h : s.grantTo machine id now = some (s', g)) : ∃ w, w.id = id ∧ GrantedTo s s' machine g w := by
  simp only [grantTo, Option.bind_eq_bind, Option.bind_eq_some_iff, Option.pure_def, Option.some.injEq,
    Prod.mk.injEq] at h
  obtain ⟨i, hi, w, hw, rfl, rfl⟩ := h
  obtain ⟨hlt, hp, -⟩ := List.findIdx?_eq_some_iff_getElem.1 hi
  obtain ⟨-, rfl⟩ := List.getElem?_eq_some_iff.1 hw
  simp only [beq_iff_eq] at hp
  have hwaiting : ∃ l₁ l₂, s.waiting = l₁ ++ s.waiting[i] :: l₂ ∧ s.waiting.eraseIdx i = l₁ ++ l₂ :=
    ⟨s.waiting.take i, s.waiting.drop (i + 1), by
      rw [List.getElem_cons_drop, List.take_append_drop], List.eraseIdx_eq_take_drop_succ _ _⟩
  refine ⟨s.waiting[i], hp, ?_⟩
  cases s.waiting[i].request.session <;>
    exact { waiting := hwaiting, holders := ⟨_, rfl, hp.symm, rfl, rfl⟩, unclaimed := by rw [hp]; rfl,
            grant := ⟨hp.symm, rfl, rfl⟩, config := rfl, nextId := rfl, nested := rfl, paused := rfl,
            reserved := rfl, mergeQueue := rfl }

/-! ## `grant` as a sequence of elementary grants -/

/-- One round of `grant`'s loop that gives `machine` away. -/
structure GrantStep (now : Nat) (s s' : Scheduler) (machine : String) (g : Grant) (w : Waiting) :
    Prop where
  known : machine ∈ s.config.machines
  free : s.free machine = true
  eligible : s.eligible machine now = some w
  granted : GrantedTo s s' machine g w

/-- The grants `gs`, one after the other, take `s` to `s'`. -/
inductive Grants (now : Nat) (s : Scheduler) : List Grant → Scheduler → Prop
  | nil : Grants now s [] s
  | snoc {gs s₁ s₂ machine g w} : Grants now s gs s₁ → GrantStep now s₁ s₂ machine g w →
      Grants now s (gs ++ [g]) s₂

theorem Grants.config {now : Nat} {s s' : Scheduler} {gs : List Grant} (h : Grants now s gs s') :
    s'.config = s.config := by
  induction h with
  | nil => rfl
  | snoc _ hg ih => rw [hg.granted.config, ih]

/-- No two waiting requests share an id. -/
def WaitingNodup (s : Scheduler) : Prop := (s.waiting.map (·.id)).Nodup

theorem WaitingNodup.eq {s : Scheduler} (hn : s.WaitingNodup) {v w : Waiting} (hv : v ∈ s.waiting)
    (hw : w ∈ s.waiting) (h : v.id = w.id) : v = w :=
  List.inj_on_of_nodup_map hn hv hw h

theorem GrantedTo.mem {s s' : Scheduler} {machine : String} {g : Grant} {w : Waiting}
    (h : GrantedTo s s' machine g w) : w ∈ s.waiting := by
  obtain ⟨l₁, l₂, hs, -⟩ := h.waiting
  simp [hs]

theorem GrantedTo.sublist {s s' : Scheduler} {machine : String} {g : Grant} {w : Waiting}
    (h : GrantedTo s s' machine g w) : s'.waiting.Sublist s.waiting := by
  obtain ⟨l₁, l₂, hs, hs'⟩ := h.waiting
  rw [hs, hs']
  exact (List.sublist_cons_self w l₂).append_left l₁

theorem GrantedTo.waitingNodup {s s' : Scheduler} {machine : String} {g : Grant} {w : Waiting}
    (h : GrantedTo s s' machine g w) (hn : s.WaitingNodup) : s'.WaitingNodup :=
  hn.sublist (h.sublist.map _)

/-- Granting takes exactly the granted request out of the queue. -/
theorem GrantedTo.mem_waiting_iff {s s' : Scheduler} {machine : String} {g : Grant} {w : Waiting}
    (h : GrantedTo s s' machine g w) (hn : s.WaitingNodup) {v : Waiting} :
    v ∈ s'.waiting ↔ v ∈ s.waiting ∧ v.id ≠ w.id := by
  obtain ⟨l₁, l₂, hs, hs'⟩ := h.waiting
  simp only [WaitingNodup, hs, List.map_append, List.map_cons] at hn
  have hw : w.id ∉ (l₁ ++ l₂).map (·.id) := by
    have := (List.nodup_middle.1 hn).notMem
    simpa using this
  rw [hs, hs']
  constructor
  · intro hv
    refine ⟨?_, fun he => hw (he ▸ List.mem_map_of_mem hv)⟩
    rcases List.mem_append.1 hv with hv | hv <;> simp [hv]
  · rintro ⟨hv, hne⟩
    simp only [List.mem_append, List.mem_cons] at hv ⊢
    rcases hv with hv | rfl | hv
    · exact .inl hv
    · exact absurd rfl hne
    · exact .inr hv

/-- A round of the loop is one elementary grant, or leaves all as it is
because the machine is not free or nothing is eligible for it. -/
theorem grantMachine_cases {now : Nat} {s : Scheduler} (hn : s.WaitingNodup) (gs : List Grant)
    (machine : String) :
    (grantMachine now (s, gs) machine = (s, gs) ∧
      (s.free machine = true → s.eligible machine now = none)) ∨
    ∃ s' g w, grantMachine now (s, gs) machine = (s', gs ++ [g]) ∧ s.free machine = true ∧
      s.eligible machine now = some w ∧ GrantedTo s s' machine g w := by
  simp only [grantMachine]
  split
  · next hf => exact .inl ⟨rfl, fun h => by simp [h] at hf⟩
  next hf =>
  split
  · next he => exact .inl ⟨rfl, fun _ => he⟩
  next w he =>
  have hw := (eligible_some he).1
  obtain ⟨⟨s', g⟩, hs⟩ := Option.isSome_iff_exists.1
    (s.grantTo_isSome machine now hw)
  obtain ⟨w', hid, hg⟩ := grantTo_spec hs
  have heq : w' = w := hn.eq hg.mem hw hid
  subst heq
  exact .inr ⟨s', g, w', by rw [hs], by simpa using hf, he, hg⟩

/-- `grant` over a list of machines is a sequence of elementary grants. -/
theorem foldl_grantMachine {now : Nat} {s₀ : Scheduler} (hn₀ : s₀.WaitingNodup) :
    ∀ (machines : List String) {s gs}, (∀ m ∈ machines, m ∈ s₀.config.machines) →
      Grants now s₀ gs s → s.WaitingNodup →
      Grants now s₀ (machines.foldl (grantMachine now) (s, gs)).2
        (machines.foldl (grantMachine now) (s, gs)).1
  | [], _, _, _, h, _ => h
  | machine :: machines, s, gs, hm, h, hn => by
    rw [List.foldl_cons]
    have hm' := fun m hmem => hm m (List.mem_cons_of_mem _ hmem)
    rcases grantMachine_cases hn gs machine with ⟨he, -⟩ | ⟨s', g, w, he, hf, hel, hg⟩
    · rw [he]; exact foldl_grantMachine hn₀ machines hm' h hn
    · rw [he]
      refine foldl_grantMachine hn₀ machines hm' (h.snoc ⟨?_, hf, hel, hg⟩) (hg.waitingNodup hn)
      rw [h.config]; exact hm machine (by simp)

theorem grant_grants (s : Scheduler) (hn : s.WaitingNodup) (now : Nat) :
    Grants now s (s.grant now).2 (s.grant now).1 :=
  foldl_grantMachine hn _ (fun _ h => h) .nil hn

/-- What every elementary grant keeps, `grant` keeps. -/
theorem Grants.invariant {now : Nat} {s s' : Scheduler} {gs : List Grant} (h : Grants now s gs s')
    (I : Scheduler → List Grant → Prop) (h₀ : I s [])
    (hstep : ∀ s₁ s₂ gs machine g w, I s₁ gs → GrantStep now s₁ s₂ machine g w → I s₂ (gs ++ [g])) :
    I s' gs := by
  induction h with
  | nil => exact h₀
  | snoc _ hg ih => exact hstep _ _ _ _ _ _ ih hg

/-! ## Admission and release -/

theorem knows_iff {s : Scheduler} {machine : String} :
    s.knows machine = true ↔ machine ∈ s.config.machines := by
  simp [knows]

theorem session?_some {s : Scheduler} {r : Request} {token : String} {h : Holder}
    (hs : s.session? r = some (token, h)) : r.token = some token ∧
      s.holders.lookup r.machine = some h ∧ h.token = some token := by
  simp only [session?] at hs
  split at hs
  · next t k ht hk =>
    split at hs
    · next he =>
      simp only [Option.some.injEq, Prod.mk.injEq] at hs
      obtain ⟨rfl, rfl⟩ := hs
      exact ⟨ht, hk, he⟩
    · cases hs
  · cases hs

/-- Everything an admission can do. The id is spent also when a preempted
session refuses the run. -/
theorem admit_cases (s : Scheduler) (r : Request) (now : Nat) :
    (∃ f, s.admitRequest r now = (s, .refused f)) ∨
    (∃ f, s.admitRequest r now = ({ s with nextId := s.nextId + 1 }, .refused f)) ∨
    (∃ token h, r.machine ∈ s.config.machines ∧ s.session? r = some (token, h) ∧
      s.admitRequest r now = ({ s with nextId := s.nextId + 1, nested := s.nested.insert s.nextId r.machine },
        .nested ⟨s.nextId, r.machine, s.jobs r.machine now, some token, true⟩)) ∨
    (r.machine ∈ s.config.machines ∧ s.session? r = none ∧
      s.admitRequest r now = ({ s with nextId := s.nextId + 1, waiting := s.waiting ++ [⟨s.nextId, r, now, none⟩] },
        .queued s.nextId)) := by
  have hsession : Scheduler.session? { s with nextId := s.nextId + 1 } r = s.session? r := rfl
  simp only [admitRequest, hsession]
  split
  · exact .inl ⟨_, rfl⟩
  next hk =>
  have hk : r.machine ∈ s.config.machines := knows_iff.1 (by simpa using hk)
  split
  · next token h hs =>
    split
    · exact .inr (.inl ⟨_, rfl⟩)
    · exact .inr (.inr (.inl ⟨token, h, hk, hs, rfl⟩))
  · next hs => exact .inr (.inr (.inr ⟨hk, hs, rfl⟩))

/-- What releasing `id` leaves: no waiting entry and no unclaimed grant of
that id, and either a nested run or a holder of that id removed, or neither
there to remove. -/
theorem release_cases (s : Scheduler) (id : Nat) :
    let s₁ := { s with waiting := s.waiting.filter (·.id != id), unclaimed := s.unclaimed.erase id }
    (∃ m, s.nested.lookup id = some m ∧
      s.release id = ({ s₁ with nested := s.nested.erase id }, none)) ∨
    (s.nested.lookup id = none ∧ (∀ m h, s.holders.lookup m = some h → h.id ≠ id) ∧
      s.release id = (s₁, none)) ∨
    (s.nested.lookup id = none ∧ ∃ m h, s.holders.lookup m = some h ∧ h.id = id ∧
      s.release id = ({ s₁ with holders := s.holders.erase m }, some h)) := by
  simp only [release]
  split
  · next hn =>
    obtain ⟨m, hm⟩ := Option.isSome_iff_exists.1 hn
    exact .inl ⟨m, hm, rfl⟩
  next hn =>
  have hn : s.nested.lookup id = none := by simpa using hn
  split
  · next hf =>
    refine .inr (.inl ⟨hn, fun m h hm he => ?_, rfl⟩)
    have := Assoc.findValue_eq_none.1 hf m h hm
    simp [he] at this
  · next m h hf =>
    obtain ⟨hm, hid⟩ := Assoc.findValue_some hf
    exact .inr (.inr ⟨hn, m, h, hm, by simpa using hid, by rw [hm]⟩)

end Scheduler

end Bellows.Lease
