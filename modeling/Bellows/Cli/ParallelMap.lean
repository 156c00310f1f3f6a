/-
`parallel_map`: threads share an index, take the items one at a time and put
each result into the item's slot. Their steps come in any order, and what a
call returns may depend on an answer from outside.

However they are scheduled, each item is mapped once, every slot is filled, and
after a fixed number of steps all threads have ended.
-/
import Mathlib.Data.List.Nodup
import Bellows.Lib.Run
import Bellows.Lib.Tally

namespace Bellows.Cli.ParallelMap

open Transition Tally

variable {T A R : Type}

inductive Worker (T R : Type) where
  | idle
  /-- It has an item, and calls the function. -/
  | took (index : Nat) (item : T)
  | returned (index : Nat) (result : R)
  | finished
  /-- The slot was out of range. -/
  | panicked

structure Call (T A : Type) where
  index : Nat
  item : T
  answer : A

structure Pool (T A R : Type) where
  next : Nat
  slots : List (Option R)
  workers : List (Worker T R)
  /-- The calls made, the latest first. -/
  calls : List (Call T A)

/-- A step of the worker `w`. -/
inductive Action (A : Type) where
  | take (w : Nat)
  | call (w : Nat) (answer : A)
  | store (w : Nat)

def start (items : List T) (limit : Nat) : Pool T A R where
  next := 0
  slots := items.map fun _ => none
  workers := List.replicate (min limit items.length) .idle
  calls := []

def step (items : List T) (f : T → A → R) (s : Pool T A R) : Action A → Option (Pool T A R)
  | .take w =>
    match s.workers[w]? with
    | some .idle =>
      -- `fetch_add` and `get`, or the end of the loop
      let worker := match items[s.next]? with
        | some item => .took s.next item
        | none => .finished
      some { s with next := s.next + 1, workers := s.workers.set w worker }
    | _ => none
  | .call w answer =>
    match s.workers[w]? with
    | some (.took index item) => some { s with
        workers := s.workers.set w (.returned index (f item answer))
        calls := ⟨index, item, answer⟩ :: s.calls }
    | _ => none
  | .store w =>
    match s.workers[w]? with
    | some (.returned index result) =>
      if index < s.slots.length then
        some { s with slots := s.slots.set index (some result), workers := s.workers.set w .idle }
      else some { s with workers := s.workers.set w .panicked }
    | _ => none

def Worker.ended : Worker T R → Bool
  | .finished | .panicked => true
  | _ => false

def Worker.isPanicked : Worker T R → Bool
  | .panicked => true
  | _ => false

/-- The results, once all threads have ended; `none` for a panic. -/
def Pool.results (s : Pool T A R) : Option (List R) := if s.workers.any (·.isPanicked) then none else s.slots.mapM id

/-- What a call of `parallel_map` may do: the calls that it makes and how it
ends. -/
inductive Maps (f : T → A → R) (items : List T) (limit : Nat) : List (Call T A) → Option (List R) → Prop
  | inOrder (answers : List A) (few : items.length ≤ 1 ∨ limit ≤ 1) (length : answers.length = items.length) :
    Maps f items limit
      ((items.zip answers).zipIdx.map fun c => ⟨c.2, c.1.1, c.1.2⟩) (some (List.zipWith f items answers))
  | threads {ms : List (Move (Pool T A R) (Action A))} {s : Pool T A R} (many : 1 < items.length ∧ 1 < limit)
    (run : Run (fun s a t => step items f s a = some t) (start items limit) ms s)
    (ended : ∀ worker ∈ s.workers, worker.ended = true) : Maps f items limit s.calls s.results

/-! ## What a step does -/

variable {items : List T} {f : T → A → R} {s t : Pool T A R}

theorem step_cases {a : Action A} (h : step items f s a = some t) :
    (∃ w, a = .take w ∧ s.workers[w]? = some .idle ∧
      ((∃ item, items[s.next]? = some item ∧
          t = { s with next := s.next + 1, workers := s.workers.set w (.took s.next item) }) ∨
        items.length ≤ s.next ∧ t = { s with next := s.next + 1, workers := s.workers.set w .finished })) ∨
    (∃ w answer index item, a = .call w answer ∧ s.workers[w]? = some (.took index item) ∧
      t = { s with workers := s.workers.set w (.returned index (f item answer)), calls := ⟨index, item, answer⟩ :: s.calls }) ∨
    ∃ w index result, a = .store w ∧ s.workers[w]? = some (.returned index result) ∧
      (index < s.slots.length ∧
          t = { s with slots := s.slots.set index (some result), workers := s.workers.set w .idle } ∨
        s.slots.length ≤ index ∧ t = { s with workers := s.workers.set w .panicked }) := by
  cases a with
  | take w =>
    simp only [step] at h
    split at h
    · next hw =>
      refine .inl ⟨w, rfl, hw, ?_⟩
      cases hitem : items[s.next]? with
      | some item => exact .inl ⟨item, rfl, by simpa [hitem] using h.symm⟩
      | none => exact .inr ⟨List.getElem?_eq_none_iff.1 hitem, by simpa [hitem] using h.symm⟩
    · cases h
  | call w answer =>
    simp only [step] at h
    split at h
    · next index item hw => exact .inr (.inl ⟨w, answer, index, item, rfl, hw, (Option.some.inj h).symm⟩)
    · cases h
  | store w =>
    simp only [step] at h
    split at h
    · next index result hw =>
      refine .inr (.inr ⟨w, index, result, rfl, hw, ?_⟩)
      split at h
      · next hlt => exact .inl ⟨hlt, (Option.some.inj h).symm⟩
      · next hge => exact .inr ⟨Nat.le_of_not_lt hge, (Option.some.inj h).symm⟩
    · cases h

/-! ## Every item is in one place -/

def Worker.hasTaken (i : Nat) : Worker T R → Int
  | .took index _ => if index = i then 1 else 0
  | _ => 0

def Worker.hasResult (i : Nat) : Worker T R → Int
  | .returned index _ => if index = i then 1 else 0
  | _ => 0

def filled (slots : List (Option R)) (i : Nat) : Int := if slots[i]?.join.isSome then 1 else 0

def called (calls : List (Call T A)) (i : Nat) : Int := total (fun call => if call.index = i then 1 else 0) calls

/-- A result that the call of an item returned. -/
def ResultOf (f : T → A → R) (calls : List (Call T A)) (i : Nat) (result : R) : Prop :=
  ∃ call ∈ calls, call.index = i ∧ result = f call.item call.answer

structure Inv (items : List T) (f : T → A → R) (s : Pool T A R) : Prop where
  slots_length : s.slots.length = items.length
  /-- Not taken yet, with a worker, or in its slot. -/
  place : ∀ i < items.length, total (Worker.hasTaken i) s.workers + total (Worker.hasResult i) s.workers +
    filled s.slots i + (if s.next ≤ i then 1 else 0) = 1
  calls_eq : ∀ i, called s.calls i = total (Worker.hasResult i) s.workers + filled s.slots i
  item : ∀ call ∈ s.calls, items[call.index]? = some call.item
  took : ∀ index item, .took index item ∈ s.workers → items[index]? = some item
  returned : ∀ index result, .returned index result ∈ s.workers → ResultOf f s.calls index result
  stored : ∀ i result, s.slots[i]? = some (some result) → ResultOf f s.calls i result
  finished : .finished ∈ s.workers → items.length ≤ s.next
  noPanic : .panicked ∉ s.workers

/-! ## The steps keep it -/

theorem total_hasTaken_nonneg (i : Nat) (workers : List (Worker T R)) : 0 ≤ total (Worker.hasTaken i) workers := by
  refine total_nonneg fun worker _ => ?_
  unfold Worker.hasTaken
  split
  · split_ifs <;> omega
  · omega

theorem total_hasResult_nonneg (i : Nat) (workers : List (Worker T R)) : 0 ≤ total (Worker.hasResult i) workers := by
  refine total_nonneg fun worker _ => ?_
  unfold Worker.hasResult
  split
  · split_ifs <;> omega
  · omega

theorem filled_set {slots : List (Option R)} {index : Nat} (h : index < slots.length) (result : R) (i : Nat) :
    filled (slots.set index (some result)) i = if index = i then 1 else filled slots i := by
  unfold filled
  rw [List.getElem?_set]
  by_cases hi : index = i
  · subst hi
    simp [h]
  · simp [hi]

theorem called_cons (call : Call T A) (calls : List (Call T A)) (i : Nat) :
    called (call :: calls) i = (if call.index = i then 1 else 0) + called calls i := by
  simp [called, total]

theorem ResultOf.cons {calls : List (Call T A)} {i : Nat} {result : R} (h : ResultOf f calls i result)
    (call : Call T A) : ResultOf f (call :: calls) i result := by
  obtain ⟨other, hother, heq⟩ := h
  exact ⟨other, List.mem_cons_of_mem _ hother, heq⟩

/-- Of a worker that is replaced only what replaces it is new. -/
theorem mem_of_mem_set {workers : List (Worker T R)} {w : Nat} {worker old : Worker T R} (h : old ∈ workers.set w worker)
    (hne : old ≠ worker) : old ∈ workers :=
  (List.mem_or_eq_of_mem_set h).resolve_right hne

theorem Inv.take (hi : Inv items f s) {w : Nat} {item : T} (hw : s.workers[w]? = some .idle)
    (hitem : items[s.next]? = some item) :
    Inv items f { s with next := s.next + 1, workers := s.workers.set w (.took s.next item) } where
  slots_length := hi.slots_length
  place i hlt := by
    have hplace := hi.place i hlt
    rw [total_set _ hw, total_set _ hw]
    simp only [Worker.hasTaken, Worker.hasResult]
    split_ifs at hplace ⊢ <;> omega
  calls_eq i := by
    rw [hi.calls_eq, total_set _ hw]
    simp [Worker.hasResult]
  item := hi.item
  took index other h := by
    by_cases hnew : (Worker.took index other : Worker T R) = .took s.next item
    · obtain ⟨rfl, rfl⟩ := Worker.took.inj hnew
      exact hitem
    · exact hi.took index other (mem_of_mem_set h hnew)
  returned index result h := hi.returned index result (mem_of_mem_set h (by simp))
  stored := hi.stored
  finished h := (hi.finished (mem_of_mem_set h (by simp))).trans (Nat.le_succ _)
  noPanic h := hi.noPanic (mem_of_mem_set h (by simp))

theorem Inv.finish (hi : Inv items f s) {w : Nat} (hw : s.workers[w]? = some .idle) (hnext : items.length ≤ s.next) :
    Inv items f { s with next := s.next + 1, workers := s.workers.set w .finished } where
  slots_length := hi.slots_length
  place i hlt := by
    have hplace := hi.place i hlt
    rw [total_set _ hw, total_set _ hw]
    simp only [Worker.hasTaken, Worker.hasResult]
    split_ifs at hplace ⊢ <;> omega
  calls_eq i := by
    rw [hi.calls_eq, total_set _ hw]
    simp [Worker.hasResult]
  item := hi.item
  took index other h := hi.took index other (mem_of_mem_set h (by simp))
  returned index result h := hi.returned index result (mem_of_mem_set h (by simp))
  stored := hi.stored
  finished _ := hnext.trans (Nat.le_succ _)
  noPanic h := hi.noPanic (mem_of_mem_set h (by simp))

theorem Inv.call (hi : Inv items f s) {w index : Nat} {item : T} (answer : A)
    (hw : s.workers[w]? = some (.took index item)) :
    Inv items f { s with workers := s.workers.set w (.returned index (f item answer)), calls := ⟨index, item, answer⟩ :: s.calls } where
  slots_length := hi.slots_length
  place i hlt := by
    have hplace := hi.place i hlt
    rw [total_set _ hw, total_set _ hw]
    simp only [Worker.hasTaken, Worker.hasResult]
    split_ifs at hplace ⊢ <;> omega
  calls_eq i := by
    rw [called_cons, hi.calls_eq, total_set _ hw]
    simp only [Worker.hasResult]
    split_ifs <;> omega
  item := List.forall_mem_cons.2 ⟨hi.took index item (List.mem_of_getElem? hw), hi.item⟩
  took other item' h := hi.took other item' (mem_of_mem_set h (by simp))
  returned other result h := by
    by_cases hnew : (Worker.returned other result : Worker T R) = .returned index (f item answer)
    · obtain ⟨rfl, rfl⟩ := Worker.returned.inj hnew
      exact ⟨_, List.mem_cons_self, rfl, rfl⟩
    · exact (hi.returned other result (mem_of_mem_set h hnew)).cons _
  stored i result h := (hi.stored i result h).cons _
  finished h := hi.finished (mem_of_mem_set h (by simp))
  noPanic h := hi.noPanic (mem_of_mem_set h (by simp))

/-- The slot of an item is there. -/
theorem Inv.index_lt (hi : Inv items f s) {index : Nat} {result : R} (h : .returned index result ∈ s.workers) :
    index < s.slots.length := by
  obtain ⟨call, hcall, rfl, -⟩ := hi.returned index result h
  rw [hi.slots_length]
  exact (List.getElem?_eq_some_iff.1 (hi.item call hcall)).1

theorem Inv.store (hi : Inv items f s) {w index : Nat} {result : R} (hw : s.workers[w]? = some (.returned index result)) :
    Inv items f { s with slots := s.slots.set index (some result), workers := s.workers.set w .idle } := by
  have hmem := List.mem_of_getElem? hw
  have hlt := hi.index_lt hmem
  -- the slot is empty: the worker has the item
  have hempty : filled s.slots index = 0 := by
    have hplace := hi.place index (hi.slots_length ▸ hlt)
    have hothers := total_hasResult_nonneg index (s.workers.set w .idle)
    rw [total_set _ hw] at hothers
    simp only [Worker.hasResult, if_true] at hothers
    have htaken := total_hasTaken_nonneg index s.workers
    unfold filled at hplace ⊢
    split_ifs at hplace ⊢ <;> omega
  constructor
  case slots_length => rw [List.length_set, hi.slots_length]
  case place =>
    intro i hltI
    have hplace := hi.place i hltI
    rw [total_set _ hw, total_set _ hw, filled_set hlt]
    simp only [Worker.hasTaken, Worker.hasResult]
    by_cases heq : index = i
    · subst heq
      rw [hempty] at hplace
      simp only [if_true]
      omega
    · simp only [if_neg heq]
      omega
  case calls_eq =>
    intro i
    rw [hi.calls_eq, total_set _ hw, filled_set hlt]
    simp only [Worker.hasResult]
    by_cases heq : index = i
    · subst heq
      rw [hempty]
      simp
    · simp [heq]
  case item => exact hi.item
  case took => exact fun other item h => hi.took other item (mem_of_mem_set h (by simp))
  case returned => exact fun other result h => hi.returned other result (mem_of_mem_set h (by simp))
  case stored =>
    intro i other h
    rw [List.getElem?_set] at h
    split at h
    · next heq =>
      obtain rfl := Option.some.inj (Option.some.inj h)
      exact heq ▸ hi.returned index result hmem
    · exact hi.stored i other h
  case finished => exact fun h => hi.finished (mem_of_mem_set h (by simp))
  case noPanic => exact fun h => hi.noPanic (mem_of_mem_set h (by simp))

theorem Inv.step (hi : Inv items f s) {a : Action A} (h : step items f s a = some t) : Inv items f t := by
  obtain ⟨w, -, hw, ⟨item, hitem, rfl⟩ | ⟨hnext, rfl⟩⟩ | ⟨w, answer, index, item, -, hw, rfl⟩ |
    ⟨w, index, result, -, hw, ⟨-, rfl⟩ | ⟨hge, -⟩⟩ := step_cases h
  · exact hi.take hw hitem
  · exact hi.finish hw hnext
  · exact hi.call answer hw
  · exact hi.store hw
  · exact absurd (hi.index_lt (List.mem_of_getElem? hw)) (by omega)

theorem start_inv (items : List T) (f : T → A → R) (limit : Nat) : Inv items f (start items limit) where
  slots_length := by simp [start]
  place i hlt := by
    have hidle : ∀ share : Worker T R → Int, share .idle = 0 →
        total share (List.replicate (min limit items.length) .idle) = 0 := by
      intro share hshare
      simp [total, hshare]
    rw [start, hidle _ rfl, hidle _ rfl]
    simp [filled, hlt]
  calls_eq i := by
    have hslot : ((items.map fun _ => none)[i]? : Option (Option R)).join = none := by
      rw [List.getElem?_map]
      cases items[i]? <;> rfl
    simp only [start, filled, hslot]
    simp [called, total, Worker.hasResult]
  item call h := by simp [start] at h
  took index item h := by simp [start] at h
  returned index result h := by simp [start] at h
  stored i result h := by
    rw [start, List.getElem?_map] at h
    cases hitem : items[i]? with
    | none => simp [hitem] at h
    | some item => simp [hitem] at h
  finished h := by simp [start] at h
  noPanic h := by simp [start] at h


/-! ## Every schedule ends -/

/-- The steps a worker has to take before it takes an item again, or ends. -/
def Worker.steps : Worker T R → Int
  | .idle => 1
  | .took _ _ => 3
  | .returned _ _ => 2
  | .finished | .panicked => 0

/-- The steps that are left. -/
def stepsLeft (items : List T) (s : Pool T A R) : Int :=
  total Worker.steps s.workers + 3 * (items.length - s.next : Nat)

theorem stepsLeft_nonneg (items : List T) (s : Pool T A R) : 0 ≤ stepsLeft items s := by
  have hworkers : 0 ≤ total Worker.steps s.workers := total_nonneg fun worker _ => by cases worker <;> simp [Worker.steps]
  unfold stepsLeft
  omega

theorem stepsLeft_start (items : List T) (limit : Nat) :
    stepsLeft items (start items limit : Pool T A R) = min limit items.length + 3 * items.length := by
  simp [stepsLeft, start, total, Worker.steps]

theorem Inv.stepsLeft (hi : Inv items f s) {a : Action A} (h : ParallelMap.step items f s a = some t) :
    stepsLeft items t + 1 = stepsLeft items s := by
  unfold ParallelMap.stepsLeft
  obtain ⟨w, -, hw, ⟨item, hitem, rfl⟩ | ⟨hnext, rfl⟩⟩ | ⟨w, answer, index, item, -, hw, rfl⟩ |
    ⟨w, index, result, -, hw, ⟨-, rfl⟩ | ⟨hge, -⟩⟩ := step_cases h
  · have hlt := (List.getElem?_eq_some_iff.1 hitem).1
    rw [total_set _ hw]
    simp only [Worker.steps]
    omega
  · rw [total_set _ hw]
    simp only [Worker.steps]
    omega
  · rw [total_set _ hw]
    simp only [Worker.steps]
    omega
  · rw [total_set _ hw]
    simp only [Worker.steps]
    omega
  · exact absurd (hi.index_lt (List.mem_of_getElem? hw)) (by omega)

/-- However the steps are ordered, there are no more of them. -/
theorem run_length {limit : Nat} {ms : List (Move (Pool T A R) (Action A))}
    (h : Run (fun s a t => step items f s a = some t) (start items limit) ms s) :
    Inv items f s ∧ ms.length + stepsLeft items s = min limit items.length + 3 * items.length := by
  induction h with
  | nil => exact ⟨start_inv items f limit, by rw [stepsLeft_start, List.length_nil]; omega⟩
  | snoc _ hstep ih =>
    obtain ⟨hi, hlen⟩ := ih
    have hleft := hi.stepsLeft hstep
    refine ⟨hi.step hstep, ?_⟩
    rw [List.length_append, List.length_singleton]
    omega

/-- A worker that has not ended can take a step. -/
theorem exists_step [Nonempty A] {worker : Worker T R} (h : worker ∈ s.workers) (hrun : worker.ended = false) :
    ∃ a t, step items f s a = some t := by
  obtain ⟨w, hw⟩ := List.getElem?_of_mem h
  cases worker with
  | idle => exact ⟨.take w, by simp [step, hw]⟩
  | took index item =>
    obtain ⟨answer⟩ := ‹Nonempty A›
    exact ⟨.call w answer, by simp [step, hw]⟩
  | returned index result =>
    by_cases hlt : index < s.slots.length
    · exact ⟨.store w, by simp [step, hw, hlt]⟩
    · exact ⟨.store w, by simp [step, hw, hlt]⟩
  | finished => cases hrun
  | panicked => cases hrun

/-! ## What comes out -/

/-- Once all workers have ended every slot is filled, by a call of its own. -/
theorem Inv.filled (hi : Inv items f s) (hended : ∀ worker ∈ s.workers, worker.ended = true) (hsome : s.workers ≠ []) :
    ∀ i < items.length, filled s.slots i = 1 ∧ called s.calls i = 1 := by
  have hfinished : ∀ worker ∈ s.workers, worker = .finished := by
    intro worker hworker
    have := hended worker hworker
    cases worker with
    | finished => rfl
    | panicked => exact absurd hworker hi.noPanic
    | idle => cases this
    | took _ _ => cases this
    | returned _ _ => cases this
  have hnext : items.length ≤ s.next := by
    obtain ⟨worker, hworker⟩ := List.exists_mem_of_ne_nil _ hsome
    exact hi.finished (hfinished worker hworker ▸ hworker)
  have hnone : ∀ share : Worker T R → Int, share .finished = 0 → total share s.workers = 0 := by
    intro share hshare
    rw [List.eq_replicate_of_mem hfinished]
    simp [total, hshare]
  intro i hlt
  have hplace := hi.place i hlt
  have hcalls := hi.calls_eq i
  rw [hnone _ rfl, hnone _ rfl, if_neg (by omega)] at hplace
  rw [hnone _ rfl] at hcalls
  omega

/-- How a call of `parallel_map` ends: with a result for each item, in order,
each from one call of the function. -/
structure Mapped (f : T → A → R) (items : List T) (calls : List (Call T A)) (results : List R) : Prop where
  length : results.length = items.length
  once : (calls.map (·.index)).Perm (List.range items.length)
  item : ∀ call ∈ calls, items[call.index]? = some call.item
  result : ∀ i result, results[i]? = some result → ResultOf f calls i result

theorem called_eq_count (calls : List (Call T A)) (i : Nat) : called calls i = (calls.map (·.index)).count i := by
  induction calls with
  | nil => rfl
  | cons call calls ih =>
    rw [called_cons, List.map_cons, List.count_cons, ih]
    by_cases h : call.index = i
    · simp [h]
      omega
    · simp [h]

theorem exists_eq_map_some : ∀ {slots : List (Option R)}, (∀ slot ∈ slots, slot ≠ none) → ∃ results : List R,
    slots = results.map some ∧ slots.mapM id = some results
  | [], _ => ⟨[], rfl, rfl⟩
  | none :: slots, h => absurd rfl (h none List.mem_cons_self)
  | some result :: slots, h => by
    obtain ⟨results, hmap, hmapM⟩ := exists_eq_map_some fun slot hslot => h slot (List.mem_cons_of_mem _ hslot)
    exact ⟨result :: results, by rw [hmap, List.map_cons], by simp [List.mapM_cons, hmapM]⟩

theorem Inv.mapped (hi : Inv items f s) (hended : ∀ worker ∈ s.workers, worker.ended = true) (hsome : s.workers ≠ []) :
    ∃ results, s.results = some results ∧ Mapped f items s.calls results := by
  have hall := hi.filled hended hsome
  have hslots : ∀ slot ∈ s.slots, slot ≠ none := by
    intro slot hslot hnone
    obtain ⟨i, hi'⟩ := List.getElem?_of_mem hslot
    have hlt : i < items.length := hi.slots_length ▸ (List.getElem?_eq_some_iff.1 hi').1
    have := (hall i hlt).1
    simp [ParallelMap.filled, hi', hnone] at this
  obtain ⟨results, hresults, hmapM⟩ := exists_eq_map_some hslots
  refine ⟨results, ?_, ?_, ?_, hi.item, ?_⟩
  · have hquiet : s.workers.any (·.isPanicked) = false := by
      rw [List.any_eq_false]
      intro worker hworker hpanicked
      cases worker with
      | panicked => exact hi.noPanic hworker
      | _ => cases hpanicked
    rw [Pool.results, hquiet, hmapM]
    rfl
  · rw [← hi.slots_length, hresults, List.length_map]
  · rw [List.perm_iff_count]
    intro i
    by_cases hlt : i < items.length
    · have := (hall i hlt).2
      rw [called_eq_count] at this
      rw [List.nodup_range.count, if_pos (List.mem_range.2 hlt)]
      omega
    · rw [List.nodup_range.count, if_neg (by simpa using hlt), List.count_eq_zero]
      intro hmem
      obtain ⟨call, hcall, rfl⟩ := List.mem_map.1 hmem
      exact hlt (List.getElem?_eq_some_iff.1 (hi.item call hcall)).1
  · intro i result h
    exact hi.stored i result (by rw [hresults, List.getElem?_map, h]; rfl)


theorem mapped_inOrder {answers : List A} (h : answers.length = items.length) :
    Mapped f items ((items.zip answers).zipIdx.map fun c => ⟨c.2, c.1.1, c.1.2⟩) (List.zipWith f items answers) where
  length := by simp [h]
  once := by
    have hindex : ((items.zip answers).zipIdx.map fun c => (⟨c.2, c.1.1, c.1.2⟩ : Call T A)).map (·.index) =
        List.range items.length := by
      rw [List.map_map, List.range_eq_range']
      calc _ = (items.zip answers).zipIdx.map Prod.snd := rfl
        _ = List.range' 0 items.length := by rw [List.zipIdx_map_snd, List.length_zip, h, Nat.min_self]
    rw [hindex]
  item call hcall := by
    obtain ⟨⟨⟨item, answer⟩, i⟩, hentry, rfl⟩ := List.mem_map.1 hcall
    have hzip := List.mk_mem_zipIdx_iff_getElem?.1 hentry
    exact (List.getElem?_zip_eq_some.1 hzip).1
  result i result hresult := by
    obtain ⟨item, answer, hitem, hanswer, rfl⟩ := List.getElem?_zipWith_eq_some.1 hresult
    have hzip : (items.zip answers)[i]? = some (item, answer) := List.getElem?_zip_eq_some.2 ⟨hitem, hanswer⟩
    exact ⟨⟨i, item, answer⟩, List.mem_map.2 ⟨((item, answer), i), List.mk_mem_zipIdx_iff_getElem?.2 hzip, rfl⟩, rfl, rfl⟩

theorem step_workers {a : Action A} (h : step items f s a = some t) : t.workers.length = s.workers.length := by
  obtain ⟨w, -, -, ⟨item, -, rfl⟩ | ⟨-, rfl⟩⟩ | ⟨w, answer, index, item, -, -, rfl⟩ |
    ⟨w, index, result, -, -, ⟨-, rfl⟩ | ⟨-, rfl⟩⟩ := step_cases h
  all_goals exact List.length_set

theorem run_workers {limit : Nat} {ms : List (Move (Pool T A R) (Action A))}
    (h : Run (fun s a t => step items f s a = some t) (start items limit) ms s) :
    s.workers.length = min limit items.length := by
  refine Reachable.invariant (fun s => s.workers.length = min limit items.length) ?_ ?_ ⟨ms, h⟩
  · exact List.length_replicate
  · exact fun s a t hs hstep => (step_workers hstep).trans hs

/-- In every schedule each item is mapped once, and its result is at its place. -/
theorem Maps.mapped {limit : Nat} {calls : List (Call T A)} {out : Option (List R)} (h : Maps f items limit calls out) :
    ∃ results, out = some results ∧ Mapped f items calls results := by
  cases h with
  | inOrder answers few length => exact ⟨_, rfl, mapped_inOrder length⟩
  | threads many run ended =>
    rename_i ms s
    have hworkers : s.workers.length = min limit items.length := run_workers run
    have hsome : s.workers ≠ [] := List.ne_nil_of_length_pos (by omega)
    exact (run_length run).1.mapped ended hsome

theorem Mapped.items_perm {calls : List (Call T A)} {results : List R} (h : Mapped f items calls results) :
    (calls.map (·.item)).Perm items := by
  have hat : (calls.map (·.item)).map some = (calls.map (·.index)).map (items[·]?) := by
    rw [List.map_map, List.map_map]
    exact List.map_congr_left fun call hcall => (h.item call hcall).symm
  have hrange : (List.range items.length).map (items[·]?) = items.map some := by
    refine List.ext_getElem (by simp) fun i hi _ => ?_
    have hlt : i < items.length := by simpa using hi
    simp [hlt]
  have hperm := h.once.map (items[·]?)
  rw [← hat, hrange] at hperm
  exact (List.map_perm_map_iff (Option.some_injective T)).1 hperm

/-- Where no item is there twice, the answer to a call depends on its item only. -/
theorem Mapped.exists_answer {calls : List (Call T A)} {results : List R} (h : Mapped f items calls results)
    (hitems : items.Nodup) (server : T → A) : ∃ answer : T → A, (∀ call ∈ calls, call.answer = answer call.item) ∧
      (∀ item, item ∉ items → answer item = server item) ∧ results = items.map fun item => f item (answer item) := by
  classical
  have hindex : (calls.map (·.index)).Nodup := h.once.nodup_iff.2 List.nodup_range
  have hsame : ∀ call ∈ calls, ∀ other ∈ calls, other.item = call.item → other = call := by
    intro call hcall other hother heq
    have hat := h.item call hcall
    rw [← heq, ← h.item other hother] at hat
    have hlt := (List.getElem?_eq_some_iff.1 (h.item call hcall)).1
    exact List.inj_on_of_nodup_map hindex hother hcall ((List.getElem?_inj hlt hitems).1 hat).symm
  have hanswer : ∀ call ∈ calls,
      ((calls.find? fun other => decide (other.item = call.item)).map (·.answer)).getD (server call.item) = call.answer := by
    intro call hcall
    cases hfind : calls.find? (fun other => decide (other.item = call.item)) with
    | none => simpa using List.find?_eq_none.1 hfind call hcall
    | some other =>
      have hother := hsame call hcall other (List.mem_of_find?_eq_some hfind) (by simpa using List.find?_some hfind)
      simp [hother]
  refine ⟨fun item => ((calls.find? fun call => decide (call.item = item)).map (·.answer)).getD (server item),
    fun call hcall => (hanswer call hcall).symm, ?_, ?_⟩
  · intro item hitem
    have hnone : calls.find? (fun call => decide (call.item = item)) = none := by
      refine List.find?_eq_none.2 fun call hcall heq => hitem ?_
      rw [← of_decide_eq_true heq]
      exact h.items_perm.mem_iff.1 (List.mem_map_of_mem hcall)
    simp [hnone]
  · refine List.ext_getElem (by rw [h.length, List.length_map]) fun i hi _ => ?_
    obtain ⟨call, hcall, rfl, hresult⟩ := h.result i _ (List.getElem?_eq_getElem hi)
    obtain ⟨hlt, hitem⟩ := List.getElem?_eq_some_iff.1 (h.item call hcall)
    rw [hresult, List.getElem_map, hitem]
    exact congrArg (f call.item) (hanswer call hcall).symm

end Bellows.Cli.ParallelMap
