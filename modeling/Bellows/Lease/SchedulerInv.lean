/-
The scheduler's state invariant, for every sequence of operations.

`Inv` ties the queue, the holders, the nested runs and the unclaimed grants
together: an id is in one of the first three, once; a holder's machine is a
configured one; an unclaimed grant is its holder's. The log kept beside the
scheduler (`Log`) is this file's own: it records what the operations
answered, so that what is granted or claimed twice, or before its time, can
be said of a run.

Pauses, reservations, CI registrations and merge-queue updates touch none of
this; moving a request and marking a holder change no id (`SameIds`).
-/
import Mathlib.Data.List.Nodup
import Bellows.Lease.SchedulerFacts

namespace Bellows.Lease

/-- What a scheduler is asked to do. A cancel of a waiting request is a release. -/
inductive Op where
  | admitRequest (request : Request) (nowMs : Nat)
  | grant (nowMs : Nat)
  | claim (id : Nat)
  | release (id : Nat)
  | reorder (id position : Nat)
  | preempt (id : Nat)
  | setPaused (machine : String) (paused : Bool)
  | reserve (machine : String) (label : Option (String × Nat))
  | ciStart (machine job : String) (nowMs : Nat)
  | ciStop (machine job : String)
  | setMergeQueue (positions : Assoc Nat Nat)
  | overruns (nowMs : Nat)

/-- What the operations of a run answered. `live`: admitted and not released
since; `granted` and `claimed`: in the order the answers were given. -/
structure Log where
  live : List Nat
  queued : List Nat
  granted : List Nat
  claimed : List Nat

structure Logged where
  scheduler : Scheduler
  log : Log

def Logged.new (config : Config) (seed : UInt64) : Logged := ⟨.new config seed, ⟨[], [], [], []⟩⟩

def Logged.apply (l : Logged) : Op → Logged
  | .admitRequest request nowMs =>
    match l.scheduler.admitRequest request nowMs with
    | (s, .queued id) => ⟨s, { l.log with live := id :: l.log.live, queued := id :: l.log.queued }⟩
    | (s, .nested grant) => ⟨s, { l.log with live := grant.id :: l.log.live }⟩
    | (s, .refused _) => ⟨s, l.log⟩
  | .grant nowMs =>
    let (s, grants) := l.scheduler.grant nowMs
    ⟨s, { l.log with granted := l.log.granted ++ grants.map (·.id) }⟩
  | .claim id =>
    let (s, grant) := l.scheduler.claim id
    ⟨s, { l.log with claimed := l.log.claimed ++ (grant.map (·.id)).toList }⟩
  | .release id => ⟨(l.scheduler.release id).1, { l.log with live := l.log.live.filter (· != id) }⟩
  | .reorder id position => { l with scheduler := (l.scheduler.reorder id position).1 }
  | .preempt id => { l with scheduler := (l.scheduler.preempt id).1 }
  | .setPaused machine paused => { l with scheduler := l.scheduler.setPaused machine paused }
  | .reserve machine label => { l with scheduler := l.scheduler.reserve machine label }
  | .ciStart machine job nowMs => { l with scheduler := l.scheduler.ciStart machine job nowMs }
  | .ciStop machine job => { l with scheduler := l.scheduler.ciStop machine job }
  | .setMergeQueue positions => { l with scheduler := l.scheduler.setMergeQueue positions }
  | .overruns nowMs => { l with scheduler := (l.scheduler.overruns nowMs).1 }

/-- The state after the operations `ops` of a daemon started with `config`. -/
def Logged.run (config : Config) (seed : UInt64) (ops : List Op) : Logged :=
  ops.foldl Logged.apply (.new config seed)

namespace Scheduler

def Waits (s : Scheduler) (id : Nat) : Prop := ∃ w ∈ s.waiting, w.id = id

def Holds (s : Scheduler) (id : Nat) : Prop := ∃ m h, s.holders.lookup m = some h ∧ h.id = id

def Nests (s : Scheduler) (id : Nat) : Prop := ∃ m, s.nested.lookup id = some m

/-- The invariant of the scheduler's own fields. -/
structure Inv (s : Scheduler) : Prop where
  waitingNodup : s.WaitingNodup
  waitingKnown : ∀ w ∈ s.waiting, w.id < s.nextId ∧ w.request.machine ∈ s.config.machines
  holderKnown : ∀ m h, s.holders.lookup m = some h →
    h.id < s.nextId ∧ h.machine = m ∧ m ∈ s.config.machines
  nestedKnown : ∀ id m, s.nested.lookup id = some m → id < s.nextId
  waits_holds : ∀ id, s.Waits id → ¬ s.Holds id
  waits_nests : ∀ id, s.Waits id → ¬ s.Nests id
  holds_nests : ∀ id, s.Holds id → ¬ s.Nests id
  holdsOnce : ∀ m m' h h', s.holders.lookup m = some h → s.holders.lookup m' = some h' →
    h.id = h'.id → m = m'
  unclaimed : ∀ id g, s.unclaimed.lookup id = some g → g.id = id ∧
    ∃ h, s.holders.lookup g.machine = some h ∧ h.id = id ∧ h.token = g.token

end Scheduler

/-- The invariant of the scheduler with its log. -/
structure Logged.Inv (l : Logged) : Prop where
  scheduler : l.scheduler.Inv
  live : ∀ id, id ∈ l.log.live ↔
    l.scheduler.Waits id ∨ l.scheduler.Holds id ∨ l.scheduler.Nests id
  waitingQueued : ∀ id, l.scheduler.Waits id → id ∈ l.log.queued ∧ id ∉ l.log.granted
  queuedKnown : ∀ id ∈ l.log.queued, id < l.scheduler.nextId
  granted : l.log.granted.Nodup ∧ ∀ id ∈ l.log.granted, id ∈ l.log.queued
  unclaimed : ∀ id g, l.scheduler.unclaimed.lookup id = some g →
    id ∈ l.log.granted ∧ id ∉ l.log.claimed
  claimed : l.log.claimed.Nodup ∧ ∀ id ∈ l.log.claimed, id ∈ l.log.granted

namespace Scheduler

theorem new_inv (config : Config) (seed : UInt64) : (Scheduler.new config seed).Inv := by
  constructor <;> simp [Scheduler.new, WaitingNodup, Waits, Holds, Nests]

/-! ## Operations that change no id -/

/-- The ids, machines and tokens of `s'` are those of `s`. -/
structure SameIds (s s' : Scheduler) : Prop where
  config : s'.config = s.config
  nextId : s'.nextId = s.nextId
  waiting : s'.waiting.map (fun w => (w.id, w.request)) = s.waiting.map fun w => (w.id, w.request)
  holders : ∀ m, (s'.holders.lookup m).map (fun h => (h.id, h.machine, h.token)) =
    (s.holders.lookup m).map fun h => (h.id, h.machine, h.token)
  nested : s'.nested = s.nested
  unclaimed : s'.unclaimed = s.unclaimed

theorem SameIds.symm {s s' : Scheduler} (h : SameIds s s') : SameIds s' s :=
  ⟨h.config.symm, h.nextId.symm, h.waiting.symm, fun m => (h.holders m).symm, h.nested.symm,
    h.unclaimed.symm⟩

theorem SameIds.mem {s s' : Scheduler} (h : SameIds s s') {w : Waiting} (hw : w ∈ s'.waiting) :
    ∃ v ∈ s.waiting, v.id = w.id ∧ v.request = w.request := by
  have hm : (w.id, w.request) ∈ s.waiting.map fun w => (w.id, w.request) := by
    rw [← h.waiting]; exact List.mem_map_of_mem hw
  simpa using hm

theorem SameIds.holder {s s' : Scheduler} (h : SameIds s s') {m : String} {k : Holder}
    (hk : s'.holders.lookup m = some k) : ∃ k', s.holders.lookup m = some k' ∧ k'.id = k.id ∧
      k'.machine = k.machine ∧ k'.token = k.token := by
  have hm := h.holders m
  rw [hk, Option.map_some] at hm
  simpa using hm.symm

theorem SameIds.waits {s s' : Scheduler} (h : SameIds s s') {id : Nat} (hw : s'.Waits id) : s.Waits id := by
  obtain ⟨w, hw, rfl⟩ := hw
  obtain ⟨v, hv, he, -⟩ := h.mem hw
  exact ⟨v, hv, he⟩

theorem SameIds.holds {s s' : Scheduler} (h : SameIds s s') {id : Nat} (hh : s'.Holds id) : s.Holds id := by
  obtain ⟨m, k, hk, rfl⟩ := hh
  obtain ⟨k', hk', he, -⟩ := h.holder hk
  exact ⟨m, k', hk', he⟩

theorem SameIds.nests {s s' : Scheduler} (h : SameIds s s') {id : Nat} : s'.Nests id ↔ s.Nests id := by
  rw [Nests, Nests, h.nested]

theorem SameIds.inv {s s' : Scheduler} (h : SameIds s s') (hi : s.Inv) : s'.Inv where
  waitingNodup := by
    have := congrArg (List.map Prod.fst) h.waiting
    simp only [List.map_map, Function.comp_def] at this
    rw [WaitingNodup, this]
    exact hi.waitingNodup
  waitingKnown w hw := by
    obtain ⟨v, hv, he, hr⟩ := h.mem hw
    rw [h.nextId, h.config, ← he, ← hr]
    exact hi.waitingKnown v hv
  holderKnown m k hk := by
    obtain ⟨k', hk', he, hm, -⟩ := h.holder hk
    rw [h.nextId, h.config, ← he, ← hm]
    exact hi.holderKnown m k' hk'
  nestedKnown id m hn := by
    rw [h.nested] at hn
    rw [h.nextId]
    exact hi.nestedKnown id m hn
  waits_holds id hw hh := hi.waits_holds id (h.waits hw) (h.holds hh)
  waits_nests id hw hn := hi.waits_nests id (h.waits hw) (h.nests.1 hn)
  holds_nests id hh hn := hi.holds_nests id (h.holds hh) (h.nests.1 hn)
  holdsOnce m m' k k' hk hk' he := by
    obtain ⟨j, hj, hje, -⟩ := h.holder hk
    obtain ⟨j', hj', hje', -⟩ := h.holder hk'
    exact hi.holdsOnce m m' j j' hj hj' (by rw [hje, hje', he])
  unclaimed id g hg := by
    rw [h.unclaimed] at hg
    obtain ⟨he, k, hk, hid, ht⟩ := hi.unclaimed id g hg
    obtain ⟨k', hk', hid', -, ht'⟩ := h.symm.holder hk
    exact ⟨he, k', hk', hid'.trans hid, ht'.trans ht⟩

end Scheduler

theorem Logged.Inv.of_sameIds {l : Logged} {s : Scheduler} (hi : l.Inv)
    (h : Scheduler.SameIds l.scheduler s) : Logged.Inv ⟨s, l.log⟩ where
  scheduler := h.inv hi.scheduler
  live id := by
    rw [hi.live id]
    exact or_congr ⟨h.symm.waits, h.waits⟩ (or_congr ⟨h.symm.holds, h.holds⟩ h.nests.symm)
  waitingQueued id hw := hi.waitingQueued id (h.waits hw)
  queuedKnown id hq := by rw [h.nextId]; exact hi.queuedKnown id hq
  granted := hi.granted
  unclaimed id g hg := hi.unclaimed id g (by rw [← h.unclaimed]; exact hg)
  claimed := hi.claimed

namespace Scheduler

theorem moveTo_ids (id position : Nat) (ws : List Waiting) :
    (moveTo id position ws).map (fun w => (w.id, w.request)) = ws.map fun w => (w.id, w.request) := by
  induction ws with
  | nil => rfl
  | cons w ws ih =>
    simp only [moveTo]
    split <;> simp [ih]

theorem reorder_sameIds (s : Scheduler) (id position : Nat) : SameIds s (s.reorder id position).1 := by
  simp only [reorder]
  split
  · exact ⟨rfl, rfl, moveTo_ids id position s.waiting, fun _ => rfl, rfl, rfl⟩
  · exact ⟨rfl, rfl, rfl, fun _ => rfl, rfl, rfl⟩

theorem preempt_sameIds (s : Scheduler) (id : Nat) : SameIds s (s.preempt id).1 := by
  simp only [preempt]
  split
  · next machine holder hf =>
    refine ⟨rfl, rfl, rfl, fun m => ?_, rfl, rfl⟩
    rw [Assoc.lookup_insert_eq_ite]
    split
    · next hm => subst hm; rw [(Assoc.findValue_some hf).1]; rfl
    · rfl
  · exact ⟨rfl, rfl, rfl, fun _ => rfl, rfl, rfl⟩

theorem overruns_sameIds (s : Scheduler) (now : Nat) : SameIds s (s.overruns now).1 := by
  refine ⟨rfl, rfl, rfl, fun m => ?_, rfl, rfl⟩
  simp only [overruns, Assoc.lookup_mapValues, Option.map_map]
  congr 1
  funext h
  simp only [Function.comp_apply]
  split <;> rfl

theorem setPaused_sameIds (s : Scheduler) (machine : String) (paused : Bool) :
    SameIds s (s.setPaused machine paused) := by
  simp only [setPaused]
  split <;> exact ⟨rfl, rfl, rfl, fun _ => rfl, rfl, rfl⟩

theorem reserve_sameIds (s : Scheduler) (machine : String) (label : Option (String × Nat)) :
    SameIds s (s.reserve machine label) := by
  cases label <;> exact ⟨rfl, rfl, rfl, fun _ => rfl, rfl, rfl⟩

theorem ciStop_sameIds (s : Scheduler) (machine job : String) : SameIds s (s.ciStop machine job) := by
  simp only [ciStop]
  split <;> exact ⟨rfl, rfl, rfl, fun _ => rfl, rfl, rfl⟩

/-! ## Admission -/

/-- Spending an id changes nothing else. -/
theorem Inv.bump {s : Scheduler} (hi : s.Inv) : Inv { s with nextId := s.nextId + 1 } where
  waitingNodup := hi.waitingNodup
  waitingKnown w hw := ⟨Nat.lt_succ_of_lt (hi.waitingKnown w hw).1, (hi.waitingKnown w hw).2⟩
  holderKnown m h hm := ⟨Nat.lt_succ_of_lt (hi.holderKnown m h hm).1, (hi.holderKnown m h hm).2⟩
  nestedKnown id m hn := Nat.lt_succ_of_lt (hi.nestedKnown id m hn)
  waits_holds := hi.waits_holds
  waits_nests := hi.waits_nests
  holds_nests := hi.holds_nests
  holdsOnce := hi.holdsOnce
  unclaimed := hi.unclaimed

theorem Inv.lt_of_waits {s : Scheduler} (hi : s.Inv) {id : Nat} (h : s.Waits id) : id < s.nextId := by
  obtain ⟨w, hw, rfl⟩ := h
  exact (hi.waitingKnown w hw).1

theorem Inv.lt_of_holds {s : Scheduler} (hi : s.Inv) {id : Nat} (h : s.Holds id) : id < s.nextId := by
  obtain ⟨m, k, hk, rfl⟩ := h
  exact (hi.holderKnown m k hk).1

theorem Inv.lt_of_nests {s : Scheduler} (hi : s.Inv) {id : Nat} (h : s.Nests id) : id < s.nextId := by
  obtain ⟨m, hm⟩ := h
  exact hi.nestedKnown id m hm

/-- An unclaimed grant's id holds its machine. -/
theorem Inv.holds_of_unclaimed {s : Scheduler} (hi : s.Inv) {id : Nat} {g : Grant}
    (h : s.unclaimed.lookup id = some g) : s.Holds id := by
  obtain ⟨-, k, hk, hid, -⟩ := hi.unclaimed id g h
  exact ⟨g.machine, k, hk, hid⟩

/-- The queue with one more request, under a fresh id. -/
theorem Inv.queue {s : Scheduler} (hi : s.Inv) {r : Request} {now : Nat}
    (hr : r.machine ∈ s.config.machines) :
    Inv { s with nextId := s.nextId + 1, waiting := s.waiting ++ [⟨s.nextId, r, now, none⟩] } where
  waitingNodup := by
    rw [WaitingNodup, List.map_append, List.nodup_append]
    refine ⟨hi.waitingNodup, by simp, fun id hid id' hid' he => ?_⟩
    simp only [List.mem_map, List.map_cons, List.map_nil, List.mem_singleton] at hid hid'
    obtain ⟨w, hw, rfl⟩ := hid
    have := (hi.waitingKnown w hw).1
    omega
  waitingKnown w hw := by
    rcases List.mem_append.1 hw with hw | hw
    · exact ⟨Nat.lt_succ_of_lt (hi.waitingKnown w hw).1, (hi.waitingKnown w hw).2⟩
    · rw [List.mem_singleton.1 hw]; exact ⟨Nat.lt_succ_self _, hr⟩
  holderKnown := hi.bump.holderKnown
  nestedKnown := hi.bump.nestedKnown
  waits_holds id hw hh := by
    obtain ⟨w, hw, rfl⟩ := hw
    rcases List.mem_append.1 hw with hw | hw
    · exact hi.waits_holds _ ⟨w, hw, rfl⟩ hh
    · rw [List.mem_singleton.1 hw] at hh; exact absurd (hi.lt_of_holds hh) (Nat.lt_irrefl _)
  waits_nests id hw hn := by
    obtain ⟨w, hw, rfl⟩ := hw
    rcases List.mem_append.1 hw with hw | hw
    · exact hi.waits_nests _ ⟨w, hw, rfl⟩ hn
    · rw [List.mem_singleton.1 hw] at hn; exact absurd (hi.lt_of_nests hn) (Nat.lt_irrefl _)
  holds_nests := hi.holds_nests
  holdsOnce := hi.holdsOnce
  unclaimed := hi.unclaimed

theorem nests_insert {s : Scheduler} {id id' : Nat} {m : String} :
    Nests { s with nextId := s.nextId + 1, nested := s.nested.insert id m } id' ↔
      id' = id ∨ s.Nests id' := by
  simp only [Nests, Assoc.lookup_insert_eq_ite]
  by_cases h : id' = id <;> simp [h]

/-- One more nested run, under a fresh id. -/
theorem Inv.nest {s : Scheduler} (hi : s.Inv) (m : String) :
    Inv { s with nextId := s.nextId + 1, nested := s.nested.insert s.nextId m } where
  waitingNodup := hi.waitingNodup
  waitingKnown := hi.bump.waitingKnown
  holderKnown := hi.bump.holderKnown
  nestedKnown id m' hn := by
    simp only [Assoc.lookup_insert_eq_ite] at hn
    split at hn
    · next h => subst h; exact Nat.lt_succ_self _
    · exact Nat.lt_succ_of_lt (hi.nestedKnown id m' hn)
  waits_holds := hi.waits_holds
  waits_nests id hw hn := by
    rcases nests_insert.1 hn with rfl | hn
    · exact Nat.lt_irrefl _ (hi.lt_of_waits hw)
    · exact hi.waits_nests id hw hn
  holds_nests id hh hn := by
    rcases nests_insert.1 hn with rfl | hn
    · exact Nat.lt_irrefl _ (hi.lt_of_holds hh)
    · exact hi.holds_nests id hh hn
  holdsOnce := hi.holdsOnce
  unclaimed := hi.unclaimed

end Scheduler

theorem Logged.Inv.admitRequest {l : Logged} (hi : l.Inv) (r : Request) (now : Nat) :
    (l.apply (.admitRequest r now)).Inv := by
  have hs := hi.scheduler
  simp only [Logged.apply]
  rcases l.scheduler.admit_cases r now with ⟨f, he⟩ | ⟨f, he⟩ | ⟨token, h, -, -, he⟩ | ⟨hr, -, he⟩
  · simp only [he]; exact hi
  · simp only [he]
    exact { hi with scheduler := hs.bump
                    queuedKnown := fun id hq => Nat.lt_succ_of_lt (hi.queuedKnown id hq) }
  · simp only [he]
    refine { hi with scheduler := hs.nest r.machine
                     live := fun id => ?_
                     queuedKnown := fun id hq => Nat.lt_succ_of_lt (hi.queuedKnown id hq) }
    rw [List.mem_cons, hi.live id, Scheduler.nests_insert]
    exact ⟨fun h => h.elim (fun h => .inr (.inr (.inl h)))
        (fun h => h.imp_right fun h => h.imp_right .inr),
      fun h => h.elim (fun h => .inr (.inl h)) fun h => h.elim (fun h => .inr (.inr (.inl h)))
        fun h => h.imp_right fun h => .inr (.inr h)⟩
  · simp only [he]
    have hfresh : l.scheduler.nextId ∉ l.log.granted := fun hg =>
      Nat.lt_irrefl _ (hi.queuedKnown _ (hi.granted.2 _ hg))
    have hwaits : ∀ id, Scheduler.Waits { l.scheduler with
        nextId := l.scheduler.nextId + 1
        waiting := l.scheduler.waiting ++ [⟨l.scheduler.nextId, r, now, none⟩] } id ↔
        id = l.scheduler.nextId ∨ l.scheduler.Waits id := by
      intro id
      simp only [Scheduler.Waits, List.mem_append, List.mem_singleton]
      constructor
      · rintro ⟨w, hw | rfl, rfl⟩
        · exact .inr ⟨w, hw, rfl⟩
        · exact .inl rfl
      · rintro (rfl | ⟨w, hw, rfl⟩)
        · exact ⟨_, .inr rfl, rfl⟩
        · exact ⟨w, .inl hw, rfl⟩
    exact {
      scheduler := hs.queue hr
      live := fun id => by rw [List.mem_cons, hi.live id, hwaits id, or_assoc]; exact Iff.rfl
      waitingQueued := fun id hw => by
        rcases (hwaits id).1 hw with rfl | hw
        · exact ⟨List.mem_cons_self, hfresh⟩
        · exact ⟨List.mem_cons_of_mem _ (hi.waitingQueued id hw).1, (hi.waitingQueued id hw).2⟩
      queuedKnown := fun id hq => by
        rcases List.mem_cons.1 hq with rfl | hq
        · exact Nat.lt_succ_self _
        · exact Nat.lt_succ_of_lt (hi.queuedKnown id hq)
      granted := ⟨hi.granted.1, fun id hg => List.mem_cons_of_mem _ (hi.granted.2 id hg)⟩
      unclaimed := hi.unclaimed
      claimed := hi.claimed }

/-! ## Release and claim -/

namespace Scheduler

/-- What releasing `id` leaves: every entry that is not of that id. -/
structure Released (s s' : Scheduler) (id : Nat) : Prop where
  config : s'.config = s.config
  nextId : s'.nextId = s.nextId
  paused : s'.paused = s.paused
  waiting : s'.waiting = s.waiting.filter (·.id != id)
  holders : ∀ m h, s'.holders.lookup m = some h ↔ s.holders.lookup m = some h ∧ h.id ≠ id
  nested : ∀ id' m, s'.nested.lookup id' = some m ↔ s.nested.lookup id' = some m ∧ id' ≠ id
  unclaimed : ∀ id' g, s'.unclaimed.lookup id' = some g ↔ s.unclaimed.lookup id' = some g ∧ id' ≠ id

theorem lookup_erase_some {κ υ : Type} [DecidableEq κ] (m : Assoc κ υ) (k k' : κ) (v : υ) :
    (m.erase k).lookup k' = some v ↔ m.lookup k' = some v ∧ k' ≠ k := by
  rw [Assoc.lookup_erase_eq_ite]
  by_cases h : k' = k <;> simp [h]

theorem release_released {s : Scheduler} (hi : s.Inv) (id : Nat) : Released s (s.release id).1 id := by
  have hun := lookup_erase_some s.unclaimed id
  have hkeep : s.nested.lookup id = none → ∀ id' m, s.nested.lookup id' = some m ↔
      s.nested.lookup id' = some m ∧ id' ≠ id := fun hn id' m =>
    ⟨fun h => ⟨h, fun he => by rw [he, hn] at h; cases h⟩, And.left⟩
  rcases s.release_cases id with ⟨m, hm, he⟩ | ⟨hn, hh, he⟩ | ⟨hn, m, h, hm, rfl, he⟩ <;> rw [he]
  · have hfree : ∀ m' h, s.holders.lookup m' = some h → h.id ≠ id := fun m' h hh he =>
      hi.holds_nests id ⟨m', h, hh, he⟩ ⟨m, hm⟩
    exact ⟨rfl, rfl, rfl, rfl, fun m' h => ⟨fun hh => ⟨hh, hfree m' h hh⟩, And.left⟩,
      lookup_erase_some s.nested id, hun⟩
  · exact ⟨rfl, rfl, rfl, rfl, fun m' h => ⟨fun hm => ⟨hm, hh m' h hm⟩, And.left⟩, hkeep hn, hun⟩
  · refine ⟨rfl, rfl, rfl, rfl, fun m' h' => ?_, hkeep hn, hun⟩
    rw [lookup_erase_some]
    refine and_congr_right fun hm' => not_congr ⟨fun hmm => ?_, fun hid => ?_⟩
    · subst hmm; rw [hm] at hm'; cases hm'; rfl
    · exact hi.holdsOnce _ _ _ _ hm' hm hid

variable {s s' : Scheduler} {id : Nat}

theorem Released.waits (h : Released s s' id) {id' : Nat} : s'.Waits id' ↔ s.Waits id' ∧ id' ≠ id := by
  simp only [Waits, h.waiting, List.mem_filter, bne_iff_ne]
  constructor
  · rintro ⟨w, ⟨hw, hne⟩, rfl⟩; exact ⟨⟨w, hw, rfl⟩, hne⟩
  · rintro ⟨⟨w, hw, rfl⟩, hne⟩; exact ⟨w, ⟨hw, hne⟩, rfl⟩

theorem Released.holds (h : Released s s' id) {id' : Nat} : s'.Holds id' ↔ s.Holds id' ∧ id' ≠ id := by
  constructor
  · rintro ⟨m, k, hk, rfl⟩
    exact ⟨⟨m, k, ((h.holders m k).1 hk).1, rfl⟩, ((h.holders m k).1 hk).2⟩
  · rintro ⟨⟨m, k, hk, rfl⟩, hne⟩
    exact ⟨m, k, (h.holders m k).2 ⟨hk, hne⟩, rfl⟩

theorem Released.nests (h : Released s s' id) {id' : Nat} : s'.Nests id' ↔ s.Nests id' ∧ id' ≠ id := by
  constructor
  · rintro ⟨m, hm⟩
    exact ⟨⟨m, ((h.nested id' m).1 hm).1⟩, ((h.nested id' m).1 hm).2⟩
  · rintro ⟨⟨m, hm⟩, hne⟩
    exact ⟨m, (h.nested id' m).2 ⟨hm, hne⟩⟩

theorem Released.inv (h : Released s s' id) (hi : s.Inv) : s'.Inv where
  waitingNodup := by
    rw [WaitingNodup, h.waiting]
    exact hi.waitingNodup.sublist (List.filter_sublist.map _)
  waitingKnown w hw := by
    rw [h.waiting] at hw
    rw [h.nextId, h.config]
    exact hi.waitingKnown w (List.mem_of_mem_filter hw)
  holderKnown m k hk := by
    rw [h.nextId, h.config]
    exact hi.holderKnown m k ((h.holders m k).1 hk).1
  nestedKnown id' m hm := by
    rw [h.nextId]
    exact hi.nestedKnown id' m ((h.nested id' m).1 hm).1
  waits_holds id' hw hh := hi.waits_holds id' (h.waits.1 hw).1 (h.holds.1 hh).1
  waits_nests id' hw hn := hi.waits_nests id' (h.waits.1 hw).1 (h.nests.1 hn).1
  holds_nests id' hh hn := hi.holds_nests id' (h.holds.1 hh).1 (h.nests.1 hn).1
  holdsOnce m m' k k' hk hk' := hi.holdsOnce m m' k k' ((h.holders m k).1 hk).1 ((h.holders m' k').1 hk').1
  unclaimed id' g hg := by
    obtain ⟨hg, hne⟩ := (h.unclaimed id' g).1 hg
    obtain ⟨he, k, hk, hid, ht⟩ := hi.unclaimed id' g hg
    exact ⟨he, k, (h.holders _ k).2 ⟨hk, hid ▸ hne⟩, hid, ht⟩

theorem Inv.claim {s : Scheduler} (hi : s.Inv) (id : Nat) : (s.claim id).1.Inv :=
  { hi with unclaimed := fun id' g hg => hi.unclaimed id' g ((lookup_erase_some _ _ _ _).1 hg).1 }

end Scheduler

theorem Logged.Inv.release {l : Logged} (hi : l.Inv) (id : Nat) : (l.apply (.release id)).Inv := by
  have h := Scheduler.release_released hi.scheduler id
  simp only [Logged.apply]
  exact {
    scheduler := h.inv hi.scheduler
    live := fun id' => by
      simp only [List.mem_filter, bne_iff_ne, hi.live id', h.waits, h.holds, h.nests, or_and_right]
    waitingQueued := fun id' hw => hi.waitingQueued id' (h.waits.1 hw).1
    queuedKnown := fun id' hq => by rw [h.nextId]; exact hi.queuedKnown id' hq
    granted := hi.granted
    unclaimed := fun id' g hg => hi.unclaimed id' g ((h.unclaimed id' g).1 hg).1
    claimed := hi.claimed }

theorem Logged.Inv.claim {l : Logged} (hi : l.Inv) (id : Nat) : (l.apply (.claim id)).Inv := by
  simp only [Logged.apply, Scheduler.claim]
  have hsched := hi.scheduler.claim id
  have hlookup := Scheduler.lookup_erase_some l.scheduler.unclaimed id
  cases hg : l.scheduler.unclaimed.lookup id with
  | none =>
    simp only [Option.map_none, Option.toList_none, List.append_nil]
    exact { hi with scheduler := hsched
                    unclaimed := fun id' g h => hi.unclaimed id' g ((hlookup id' g).1 h).1 }
  | some g =>
    have hid : g.id = id := (hi.scheduler.unclaimed id g hg).1
    have hnew := hi.unclaimed id g hg
    simp only [Option.map_some, Option.toList_some, hid]
    refine { hi with scheduler := hsched, unclaimed := fun id' g' h => ?_, claimed := ⟨?_, ?_⟩ }
    · obtain ⟨h, hne⟩ := (hlookup id' g').1 h
      refine ⟨(hi.unclaimed id' g' h).1, fun hc => ?_⟩
      rcases List.mem_append.1 hc with hc | hc
      · exact (hi.unclaimed id' g' h).2 hc
      · exact hne (List.mem_singleton.1 hc)
    · rw [List.nodup_append]
      refine ⟨hi.claimed.1, by simp, fun x hx y hy he => hnew.2 ?_⟩
      rw [List.mem_singleton] at hy
      rw [← hy, ← he]; exact hx
    · intro id' hc
      rcases List.mem_append.1 hc with hc | hc
      · exact hi.claimed.2 id' hc
      · rw [List.mem_singleton.1 hc]; exact hnew.1

/-! ## Grants -/

namespace Scheduler

variable {s s' : Scheduler} {machine : String} {g : Grant} {w : Waiting}

theorem GrantedTo.waits (h : GrantedTo s s' machine g w) (hn : s.WaitingNodup) {id : Nat} :
    s'.Waits id ↔ s.Waits id ∧ id ≠ w.id := by
  constructor
  · rintro ⟨v, hv, rfl⟩
    obtain ⟨hv, hne⟩ := (h.mem_waiting_iff hn).1 hv
    exact ⟨⟨v, hv, rfl⟩, hne⟩
  · rintro ⟨⟨v, hv, rfl⟩, hne⟩
    exact ⟨v, (h.mem_waiting_iff hn).2 ⟨hv, hne⟩, rfl⟩

/-- The holders of a free machine's grantee: one more. -/
theorem GrantedTo.lookup_holders (h : GrantedTo s s' machine g w) {m : String} {k : Holder}
    (hk : s'.holders.lookup m = some k) :
    (m = machine ∧ k.id = w.id ∧ k.machine = machine ∧ k.token = g.token) ∨
      (m ≠ machine ∧ s.holders.lookup m = some k) := by
  obtain ⟨k', hs', hid, hm, ht⟩ := h.holders
  rw [hs', Assoc.lookup_insert_eq_ite] at hk
  split at hk
  · next he => cases hk; exact .inl ⟨he, hid, hm, ht⟩
  · next he => exact .inr ⟨he, hk⟩

theorem GrantedTo.lookup_old (h : GrantedTo s s' machine g w) {m : String} (hm : m ≠ machine) :
    s'.holders.lookup m = s.holders.lookup m := by
  obtain ⟨k', hs', -⟩ := h.holders
  rw [hs', Assoc.lookup_insert_eq_ite, if_neg hm]

theorem GrantedTo.lookup_new (h : GrantedTo s s' machine g w) :
    ∃ k, s'.holders.lookup machine = some k ∧ k.id = w.id ∧ k.token = g.token := by
  obtain ⟨k, hs', hid, -, ht⟩ := h.holders
  exact ⟨k, by rw [hs', Assoc.lookup_insert_eq_ite, if_pos rfl], hid, ht⟩

theorem GrantedTo.holds (h : GrantedTo s s' machine g w) (hf : s.free machine = true) {id : Nat} :
    s'.Holds id ↔ s.Holds id ∨ id = w.id := by
  constructor
  · rintro ⟨m, k, hk, rfl⟩
    rcases h.lookup_holders hk with ⟨-, hid, -⟩ | ⟨-, hk⟩
    · exact .inr hid
    · exact .inl ⟨m, k, hk, rfl⟩
  · rintro (⟨m, k, hk, rfl⟩ | rfl)
    · refine ⟨m, k, ?_, rfl⟩
      rw [h.lookup_old, hk]
      rintro rfl
      rw [(free_iff.1 hf).1] at hk; cases hk
    · obtain ⟨k, hk, hid, -⟩ := h.lookup_new
      exact ⟨machine, k, hk, hid⟩

theorem GrantedTo.nests (h : GrantedTo s s' machine g w) {id : Nat} : s'.Nests id ↔ s.Nests id := by
  rw [Nests, Nests, h.nested]

theorem GrantedTo.lookup_unclaimed (h : GrantedTo s s' machine g w) {id : Nat} {g' : Grant}
    (hg : s'.unclaimed.lookup id = some g') :
    (id = w.id ∧ g' = g) ∨ (id ≠ w.id ∧ s.unclaimed.lookup id = some g') := by
  rw [h.unclaimed, Assoc.lookup_insert_eq_ite] at hg
  split at hg
  · next he => cases hg; exact .inl ⟨he, rfl⟩
  · next he => exact .inr ⟨he, hg⟩

theorem GrantedTo.waits_self (h : GrantedTo s s' machine g w) : s.Waits w.id := ⟨w, h.mem, rfl⟩

theorem GrantedTo.inv (h : GrantedTo s s' machine g w) (hi : s.Inv) (hf : s.free machine = true)
    (hm : machine ∈ s.config.machines) : s'.Inv where
  waitingNodup := h.waitingNodup hi.waitingNodup
  waitingKnown v hv := by
    rw [h.nextId, h.config]
    exact hi.waitingKnown v (h.sublist.subset hv)
  holderKnown m k hk := by
    rw [h.nextId, h.config]
    rcases h.lookup_holders hk with ⟨rfl, hid, hkm, -⟩ | ⟨-, hk⟩
    · exact ⟨hid ▸ hi.lt_of_waits h.waits_self, hkm, hm⟩
    · exact hi.holderKnown m k hk
  nestedKnown id m hn := by
    rw [h.nested] at hn
    rw [h.nextId]
    exact hi.nestedKnown id m hn
  waits_holds id hw hh := by
    obtain ⟨hw, hne⟩ := (h.waits hi.waitingNodup).1 hw
    exact ((h.holds hf).1 hh).elim (hi.waits_holds id hw) hne
  waits_nests id hw hn := hi.waits_nests id ((h.waits hi.waitingNodup).1 hw).1 (h.nests.1 hn)
  holds_nests id hh hn := by
    rcases (h.holds hf).1 hh with hh | rfl
    · exact hi.holds_nests id hh (h.nests.1 hn)
    · exact hi.waits_nests _ h.waits_self (h.nests.1 hn)
  holdsOnce m m' k k' hk hk' he := by
    rcases h.lookup_holders hk with ⟨rfl, hid, -⟩ | ⟨-, hk⟩ <;>
      rcases h.lookup_holders hk' with ⟨rfl, hid', -⟩ | ⟨-, hk'⟩
    · rfl
    · exact absurd ⟨_, k', hk', by rw [← he, hid]⟩ (hi.waits_holds _ h.waits_self)
    · exact absurd ⟨_, k, hk, by rw [he, hid']⟩ (hi.waits_holds _ h.waits_self)
    · exact hi.holdsOnce m m' k k' hk hk' he
  unclaimed id g' hg := by
    rcases h.lookup_unclaimed hg with ⟨rfl, rfl⟩ | ⟨hne, hg⟩
    · obtain ⟨k, hk, hid, ht⟩ := h.lookup_new
      exact ⟨h.grant.1, k, by rw [h.grant.2.1]; exact hk, hid, ht⟩
    · obtain ⟨he, k, hk, hid, ht⟩ := hi.unclaimed id g' hg
      refine ⟨he, k, ?_, hid, ht⟩
      rw [h.lookup_old, hk]
      intro hme
      rw [hme, (free_iff.1 hf).1] at hk; cases hk

end Scheduler

/-- One elementary grant, with the id it adds to the log. -/
theorem Logged.Inv.grantStep {s s' : Scheduler} {log : Log} {now : Nat} {machine : String} {g : Grant}
    {w : Waiting} (hi : Logged.Inv ⟨s, log⟩) (h : Scheduler.GrantStep now s s' machine g w) :
    Logged.Inv ⟨s', { log with granted := log.granted ++ [g.id] }⟩ := by
  have hg := h.granted
  have hn := hi.scheduler.waitingNodup
  have hw := hi.waitingQueued w.id hg.waits_self
  rw [hg.grant.1]
  exact {
    scheduler := hg.inv hi.scheduler h.free h.known
    live := fun id => by
      rw [hi.live id, hg.waits hn, hg.holds h.free, hg.nests]
      constructor
      · rintro (hw | hh | hn)
        · by_cases he : id = w.id
          · exact .inr (.inl (.inr he))
          · exact .inl ⟨hw, he⟩
        · exact .inr (.inl (.inl hh))
        · exact .inr (.inr hn)
      · rintro (⟨hw, -⟩ | (hh | rfl) | hn)
        · exact .inl hw
        · exact .inr (.inl hh)
        · exact .inl hg.waits_self
        · exact .inr (.inr hn)
    waitingQueued := fun id hid => by
      obtain ⟨hid, hne⟩ := (hg.waits hn).1 hid
      obtain ⟨hq, hng⟩ := hi.waitingQueued id hid
      exact ⟨hq, by simp [hng, hne]⟩
    queuedKnown := fun id hq => by rw [hg.nextId]; exact hi.queuedKnown id hq
    granted := by
      refine ⟨?_, fun id hid => ?_⟩
      · rw [List.nodup_append]
        refine ⟨hi.granted.1, by simp, fun x hx y hy he => hw.2 ?_⟩
        rw [List.mem_singleton] at hy
        rw [← hy, ← he]; exact hx
      · rcases List.mem_append.1 hid with hid | hid
        · exact hi.granted.2 id hid
        · rw [List.mem_singleton.1 hid]; exact hw.1
    unclaimed := fun id g' hu => by
      rcases hg.lookup_unclaimed hu with ⟨rfl, -⟩ | ⟨-, hu⟩
      · exact ⟨by simp, fun hc => hw.2 (hi.claimed.2 _ hc)⟩
      · exact ⟨List.mem_append_left _ (hi.unclaimed id g' hu).1, (hi.unclaimed id g' hu).2⟩
    claimed := ⟨hi.claimed.1, fun id hc => List.mem_append_left _ (hi.claimed.2 id hc)⟩ }

theorem Logged.Inv.grant {l : Logged} (hi : l.Inv) (now : Nat) : (l.apply (.grant now)).Inv := by
  simp only [Logged.apply]
  refine (l.scheduler.grant_grants hi.scheduler.waitingNodup now).invariant
    (fun s gs => Logged.Inv ⟨s, { l.log with granted := l.log.granted ++ gs.map (·.id) }⟩)
    (by simpa using hi) fun s₁ s₂ gs machine g w h hstep => ?_
  simpa [List.append_assoc] using h.grantStep hstep

/-! ## Every run -/

theorem Logged.Inv.apply {l : Logged} (hi : l.Inv) (op : Op) : (l.apply op).Inv := by
  cases op with
  | admitRequest r now => exact hi.admitRequest r now
  | grant now => exact hi.grant now
  | claim id => exact hi.claim id
  | release id => exact hi.release id
  | reorder id position => exact hi.of_sameIds (l.scheduler.reorder_sameIds id position)
  | preempt id => exact hi.of_sameIds (l.scheduler.preempt_sameIds id)
  | setPaused machine paused => exact hi.of_sameIds (l.scheduler.setPaused_sameIds machine paused)
  | reserve machine label => exact hi.of_sameIds (l.scheduler.reserve_sameIds machine label)
  | ciStart machine job now => exact hi.of_sameIds ⟨rfl, rfl, rfl, fun _ => rfl, rfl, rfl⟩
  | ciStop machine job => exact hi.of_sameIds (l.scheduler.ciStop_sameIds machine job)
  | setMergeQueue positions => exact hi.of_sameIds ⟨rfl, rfl, rfl, fun _ => rfl, rfl, rfl⟩
  | overruns now => exact hi.of_sameIds (l.scheduler.overruns_sameIds now)

theorem Logged.new_inv (config : Config) (seed : UInt64) : (Logged.new config seed).Inv where
  scheduler := Scheduler.new_inv config seed
  live := by simp [Logged.new, Scheduler.new, Scheduler.Waits, Scheduler.Holds, Scheduler.Nests]
  waitingQueued := by simp [Logged.new, Scheduler.new, Scheduler.Waits]
  queuedKnown := by simp [Logged.new]
  granted := by simp [Logged.new]
  unclaimed := by simp [Logged.new, Scheduler.new]
  claimed := by simp [Logged.new]

theorem Logged.run_inv (config : Config) (seed : UInt64) (ops : List Op) :
    (Logged.run config seed ops).Inv := by
  unfold Logged.run
  induction ops using List.reverseRecOn with
  | nil => exact Logged.new_inv config seed
  | append_singleton ops op ih =>
    rw [List.foldl_append, List.foldl_cons, List.foldl_nil]
    exact ih.apply op

/-- What the collections of a scheduler, and the log of the run that led to
it, are promised to be. -/
structure WellFormed (config : Config) (l : Logged) : Prop where
  waitingOnce : (l.scheduler.waiting.map (·.id)).Nodup
  waits_holds : ∀ id, ¬ (l.scheduler.Waits id ∧ l.scheduler.Holds id)
  waits_nests : ∀ id, ¬ (l.scheduler.Waits id ∧ l.scheduler.Nests id)
  holds_nests : ∀ id, ¬ (l.scheduler.Holds id ∧ l.scheduler.Nests id)
  /-- No id holds two machines. -/
  holdsOnce : ∀ m m' h h', l.scheduler.holders.lookup m = some h →
    l.scheduler.holders.lookup m' = some h' → h.id = h'.id → m = m'
  /-- A machine's holder is filed under that machine, a configured one. -/
  holderMachine : ∀ m h, l.scheduler.holders.lookup m = some h → h.machine = m ∧ m ∈ config.machines
  unclaimed : ∀ id g, l.scheduler.unclaimed.lookup id = some g →
    ∃ h, l.scheduler.holders.lookup g.machine = some h ∧ h.id = id ∧ h.machine = g.machine ∧
      h.token = g.token
  grantedOnce : l.log.granted.Nodup ∧ ∀ id ∈ l.log.granted, id ∈ l.log.queued
  claimedOnce : l.log.claimed.Nodup ∧ ∀ id ∈ l.log.claimed, id ∈ l.log.granted
  /-- An admitted id is in one of the three collections until it is released
  (in exactly one: `waits_holds` and the two after it). -/
  live : ∀ id, id ∈ l.log.live ↔
    l.scheduler.Waits id ∨ l.scheduler.Holds id ∨ l.scheduler.Nests id

theorem Scheduler.apply_config (l : Logged) (op : Op) (hi : l.Inv) :
    (l.apply op).scheduler.config = l.scheduler.config := by
  cases op with
  | admitRequest r now =>
    simp only [Logged.apply]
    rcases l.scheduler.admit_cases r now with ⟨f, he⟩ | ⟨f, he⟩ | ⟨_, _, -, -, he⟩ | ⟨-, -, he⟩ <;>
      simp only [he]
  | grant now => exact (l.scheduler.grant_grants hi.scheduler.waitingNodup now).config
  | claim => rfl
  | release id => exact (Scheduler.release_released hi.scheduler id).config
  | reorder id position => exact (l.scheduler.reorder_sameIds id position).config
  | preempt id => exact (l.scheduler.preempt_sameIds id).config
  | setPaused machine paused => exact (l.scheduler.setPaused_sameIds machine paused).config
  | reserve machine label => exact (l.scheduler.reserve_sameIds machine label).config
  | ciStart => rfl
  | ciStop machine job => exact (l.scheduler.ciStop_sameIds machine job).config
  | setMergeQueue => rfl
  | overruns => rfl

theorem Logged.run_config (config : Config) (seed : UInt64) (ops : List Op) :
    (Logged.run config seed ops).scheduler.config = config := by
  induction ops using List.reverseRecOn with
  | nil => rfl
  | append_singleton ops op ih =>
    rw [Logged.run, List.foldl_append, List.foldl_cons, List.foldl_nil]
    exact (Scheduler.apply_config _ op (Logged.run_inv config seed ops)).trans ih

/-- **The scheduler's state invariant**, after every sequence of operations. -/
theorem run_wellFormed (config : Config) (seed : UInt64) (ops : List Op) :
    WellFormed config (Logged.run config seed ops) := by
  have hi := Logged.run_inv config seed ops
  have hs := hi.scheduler
  refine { waitingOnce := hs.waitingNodup
           waits_holds := fun id h => hs.waits_holds id h.1 h.2
           waits_nests := fun id h => hs.waits_nests id h.1 h.2
           holds_nests := fun id h => hs.holds_nests id h.1 h.2
           holdsOnce := hs.holdsOnce
           holderMachine := fun m h hm => ?_
           unclaimed := fun id g hg => ?_
           grantedOnce := hi.granted
           claimedOnce := hi.claimed
           live := hi.live }
  · obtain ⟨-, hmachine, hknown⟩ := hs.holderKnown m h hm
    exact ⟨hmachine, by rw [← Logged.run_config config seed ops]; exact hknown⟩
  · obtain ⟨-, h, hm, hid, ht⟩ := hs.unclaimed id g hg
    exact ⟨h, hm, hid, (hs.holderKnown _ h hm).2.1, ht⟩

end Bellows.Lease
