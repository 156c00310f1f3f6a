/-
Where `reorder` puts a request.

Moved requests are put into the queue one after another, the lowest position
first, whichever was moved last. So one that was moved to the same position
before goes ahead of the new one if its id is larger, one moved beyond it is
put in around it, and with too few others below it there is no such position.
`Fits` is what must not be so; where it holds the request is where it was moved
to and the others are as they were, and only there.
-/
import Bellows.Lease.GrantOrder
import Bellows.Lib.Insertions

namespace Bellows.Lease

open Insertions

namespace Scheduler

/-- The position a request was moved to. -/
def movedTo (w : Waiting) : Nat := w.manualPosition.getD 0

instance : Std.Total MovedBefore where
  total a b := by
    unfold MovedBefore
    cases a.manualPosition <;> cases b.manualPosition <;> simp only [true_or, or_true] <;> omega

instance : IsTrans Waiting MovedBefore where
  trans a b c := by
    unfold MovedBefore
    cases a.manualPosition <;> cases b.manualPosition <;> cases c.manualPosition <;> simp only [] <;> grind

/-- The requests for `machine` that were not moved, apart from `id`. -/
def othersAutomatic (s : Scheduler) (machine : String) (id : Nat) : List Waiting :=
  (s.waiting.filter fun w =>
    w.request.machine == machine && w.manualPosition.isNone && w.id != id).insertionSort s.Before

/-- The moved ones apart from `id`, in the order they are put in. -/
def othersMoved (s : Scheduler) (machine : String) (id : Nat) : List Waiting :=
  (s.waiting.filter fun w =>
    w.request.machine == machine && w.manualPosition.isSome && w.id != id).insertionSort MovedBefore

/-! ## The queue around one request -/

/-- A sort without some elements is the sort of the others, if the order tells
the elements apart. -/
theorem filter_insertionSort {α : Type} {r : α → α → Prop} [DecidableRel r] [Std.Total r] [IsTrans α r] {l : List α}
    (hanti : ∀ a ∈ l, ∀ b ∈ l, r a b → r b a → a = b) (q : α → Bool) :
    (l.insertionSort r).filter q = (l.filter q).insertionSort r := by
  have hperm : ((l.insertionSort r).filter q).Perm ((l.filter q).insertionSort r) :=
    ((List.perm_insertionSort r l).filter q).trans (List.perm_insertionSort r _).symm
  refine hperm.eq_of_pairwise ?_ ((List.pairwise_insertionSort r l).filter q) (List.pairwise_insertionSort r _)
  intro a b ha hb hab hba
  have hal : a ∈ l := (List.mem_insertionSort r).1 (List.mem_filter.1 ha).1
  have hbl : b ∈ l := (List.mem_filter.1 ((List.mem_insertionSort r).1 hb)).1
  exact hanti a hal b hbl hab hba

theorem Before.antisymm {s : Scheduler} {a b : Waiting} (hab : s.Before a b) (hba : s.Before b a) : a.id = b.id := by
  simp only [Before] at hab hba
  omega

theorem MovedBefore.antisymm {a b : Waiting} (hab : MovedBefore a b) (hba : MovedBefore b a) : a.id = b.id := by
  unfold MovedBefore at hab hba
  cases ha : a.manualPosition <;> cases hb : b.manualPosition <;> simp only [ha, hb] at hab hba <;> omega

theorem othersAutomatic_eq {s : Scheduler} (hn : s.WaitingNodup) (machine : String) (id : Nat) :
    othersAutomatic s machine id =
      ((s.waiting.filter fun w => w.request.machine == machine && w.manualPosition.isNone).insertionSort
        s.Before).filter (·.id != id) := by
  rw [filter_insertionSort, List.filter_filter, othersAutomatic]
  · simp only [Bool.and_comm]
  · intro a ha b hb hab hba
    exact hn.eq (List.mem_filter.1 ha).1 (List.mem_filter.1 hb).1 (hab.antisymm hba)

theorem othersMoved_eq {s : Scheduler} (hn : s.WaitingNodup) (machine : String) (id : Nat) :
    othersMoved s machine id =
      ((s.waiting.filter fun w => w.request.machine == machine && w.manualPosition.isSome).insertionSort
        MovedBefore).filter (·.id != id) := by
  rw [filter_insertionSort, List.filter_filter, othersMoved]
  · simp only [Bool.and_comm]
  · intro a ha b hb hab hba
    exact hn.eq (List.mem_filter.1 ha).1 (List.mem_filter.1 hb).1 (hab.antisymm hba)

theorem nodup_sorted {s : Scheduler} (hn : s.WaitingNodup) (q : Waiting → Bool) (r : Waiting → Waiting → Prop)
    [DecidableRel r] : (((s.waiting.filter q).insertionSort r).map (·.id)).Nodup :=
  ((List.perm_insertionSort r _).map _).nodup_iff.2 (hn.sublist (List.filter_sublist.map _))

/-- One request among others of other ids. -/
theorem split_at {l : List Waiting} {x : Waiting} (hx : x ∈ l) (hn : (l.map (·.id)).Nodup) :
    ∃ before after, l = before ++ x :: after ∧ l.filter (·.id != x.id) = before ++ after := by
  obtain ⟨before, after, rfl⟩ := List.append_of_mem hx
  refine ⟨before, after, rfl, ?_⟩
  rw [List.map_append, List.map_cons, List.nodup_append] at hn
  obtain ⟨-, hafter, hcross⟩ := hn
  have hb : before.filter (·.id != x.id) = before := by
    rw [List.filter_eq_self]
    intro w hw
    have hne := hcross w.id (List.mem_map_of_mem hw) x.id List.mem_cons_self
    simpa using hne
  have ha : after.filter (·.id != x.id) = after := by
    rw [List.filter_eq_self]
    intro w hw
    have hne : w.id ≠ x.id := fun h => (List.nodup_cons.1 hafter).1 (h ▸ List.mem_map_of_mem hw)
    simpa using hne
  rw [List.filter_append, List.filter_cons_of_neg (by simp), hb, ha]

/-- A list without a request whose id is not in it. -/
theorem filter_absent {l : List Waiting} {id : Nat} (h : ∀ w ∈ l, w.id ≠ id) : l.filter (·.id != id) = l := by
  rw [List.filter_eq_self]
  intro w hw
  simpa using h w hw

theorem MovedBefore.le {a b : Waiting} (ha : a.manualPosition.isSome) (hb : b.manualPosition.isSome)
    (h : MovedBefore a b) : movedTo a ≤ movedTo b := by
  unfold MovedBefore at h
  obtain ⟨p, hp⟩ := Option.isSome_iff_exists.1 ha
  obtain ⟨q, hq⟩ := Option.isSome_iff_exists.1 hb
  simp only [hp, hq] at h
  simp only [movedTo, hp, hq, Option.getD_some]
  omega

/-- The queue as the others', with the request where it ends. -/
structure Around (s : Scheduler) (x : Waiting) (t : Nat) : Prop where
  le : t ≤ (othersAutomatic s x.request.machine x.id).length + (othersMoved s x.request.machine x.id).length
  order : s.order x.request.machine =
    ((othersMoved s x.request.machine x.id).foldl (placeAround movedTo t)
      (othersAutomatic s x.request.machine x.id)).insertIdx t x
  moved : ∀ p, x.manualPosition = some p → (t = p ↔
    (∀ w ∈ othersMoved s x.request.machine x.id, movedTo w = p → w.id < x.id) ∧
      p ≤ (othersAutomatic s x.request.machine x.id).length +
        ((othersMoved s x.request.machine x.id).filter (movedTo · ≤ p)).length)

theorem pairwise_moved (s : Scheduler) (q : Waiting → Bool) : ((s.waiting.filter fun w =>
    q w && w.manualPosition.isSome).insertionSort MovedBefore).Pairwise fun a b => movedTo a ≤ movedTo b := by
  have hsorted := List.pairwise_insertionSort MovedBefore (s.waiting.filter fun w => q w && w.manualPosition.isSome)
  refine hsorted.imp_of_mem ?_
  intro a b ha hb hab
  have hmoved : ∀ w, w ∈ (s.waiting.filter fun w => q w && w.manualPosition.isSome).insertionSort MovedBefore →
      w.manualPosition.isSome = true := by
    intro w hw
    rw [List.mem_insertionSort, List.mem_filter, Bool.and_eq_true] at hw
    exact hw.2.2
  exact hab.le (hmoved a ha) (hmoved b hb)

theorem exists_around_automatic {s : Scheduler} (hn : s.WaitingNodup) {x : Waiting} (hx : x ∈ s.waiting)
    (hauto : x.manualPosition = none) : ∃ t, s.Around x t := by
  have hmem : x ∈ (s.waiting.filter fun w =>
      w.request.machine == x.request.machine && w.manualPosition.isNone).insertionSort s.Before := by
    rw [List.mem_insertionSort, List.mem_filter]
    exact ⟨hx, by simp [hauto]⟩
  obtain ⟨before, after, hsplit, hothers⟩ := split_at hmem (nodup_sorted hn _ _)
  rw [← othersAutomatic_eq hn] at hothers
  have hmoved : othersMoved s x.request.machine x.id =
      (s.waiting.filter fun w =>
        w.request.machine == x.request.machine && w.manualPosition.isSome).insertionSort MovedBefore := by
    rw [othersMoved_eq hn, filter_absent]
    intro w hw hid
    rw [List.mem_insertionSort, List.mem_filter] at hw
    rw [hn.eq hw.1 hx hid] at hw
    simp [hauto] at hw
  have hinsert : before ++ x :: after = (othersAutomatic s x.request.machine x.id).insertIdx before.length x := by
    rw [hothers, insertIdx_append_length]
  obtain ⟨t, -, htl, -, hfold⟩ := foldl_place_insertIdx movedTo x
    (show before.length ≤ (othersAutomatic s x.request.machine x.id).length by simp [hothers])
    (pairwise_moved s fun w => w.request.machine == x.request.machine)
  rw [← hmoved] at htl hfold
  refine ⟨t, htl, ?_, by simp [hauto]⟩
  rw [← hfold, ← hinsert, ← hsplit, hmoved]
  rfl

/-- Another moved request that was put in before `x`, or after it. -/
theorem MovedBefore.compare {x w : Waiting} {p : Nat} (hx : x.manualPosition = some p)
    (hw : w.manualPosition.isSome) (hid : w.id ≠ x.id) :
    (MovedBefore w x → movedTo w < p ∨ movedTo w = p ∧ w.id < x.id) ∧
      (MovedBefore x w → p < movedTo w ∨ movedTo w = p ∧ x.id < w.id) := by
  obtain ⟨q, hq⟩ := Option.isSome_iff_exists.1 hw
  simp only [MovedBefore, hx, hq, movedTo, Option.getD_some]
  omega

theorem exists_around_moved {s : Scheduler} (hn : s.WaitingNodup) {x : Waiting} (hx : x ∈ s.waiting) {p : Nat}
    (hp : x.manualPosition = some p) : ∃ t, s.Around x t := by
  have hmem : x ∈ (s.waiting.filter fun w =>
      w.request.machine == x.request.machine && w.manualPosition.isSome).insertionSort MovedBefore := by
    rw [List.mem_insertionSort, List.mem_filter]
    exact ⟨hx, by simp [hp]⟩
  obtain ⟨before, after, hsplit, hothers⟩ := split_at hmem (nodup_sorted hn _ _)
  rw [← othersMoved_eq hn] at hothers
  have hauto : othersAutomatic s x.request.machine x.id =
      (s.waiting.filter fun w =>
        w.request.machine == x.request.machine && w.manualPosition.isNone).insertionSort s.Before := by
    rw [othersAutomatic_eq hn, filter_absent]
    intro w hw hid
    rw [List.mem_insertionSort, List.mem_filter] at hw
    rw [hn.eq hw.1 hx hid] at hw
    simp [hp] at hw
  have hsorted := pairwise_moved s fun w => w.request.machine == x.request.machine
  rw [hsplit] at hsorted
  obtain ⟨t, htl, hfold, hiff⟩ :=
    foldl_place_cons movedTo x (othersAutomatic s x.request.machine x.id) hsorted
  have hpos : movedTo x = p := by simp [movedTo, hp]
  -- which of the others were put in before `x`
  have hcompare := List.pairwise_insertionSort MovedBefore (s.waiting.filter fun w =>
    w.request.machine == x.request.machine && w.manualPosition.isSome)
  rw [hsplit] at hcompare
  obtain ⟨-, htail, hcross⟩ := List.pairwise_append.1 hcompare
  have hother : ∀ w ∈ before ++ after, w.manualPosition.isSome = true ∧ w.id ≠ x.id := by
    intro w hw
    rw [← hothers, othersMoved, List.mem_insertionSort, List.mem_filter] at hw
    have hw' := hw.2
    simp only [Bool.and_eq_true, bne_iff_ne, ne_eq] at hw'
    exact ⟨hw'.1.2, hw'.2⟩
  have hbefore : ∀ w ∈ before, movedTo w < p ∨ movedTo w = p ∧ w.id < x.id := by
    intro w hw
    obtain ⟨hsome, hid⟩ := hother w (List.mem_append_left _ hw)
    exact (MovedBefore.compare hp hsome hid).1 (hcross w hw x List.mem_cons_self)
  have hafter : ∀ w ∈ after, p < movedTo w ∨ movedTo w = p ∧ x.id < w.id := by
    intro w hw
    obtain ⟨hsome, hid⟩ := hother w (List.mem_append_right _ hw)
    exact (MovedBefore.compare hp hsome hid).2 ((List.pairwise_cons.1 htail).1 w hw)
  refine ⟨t, ?_, ?_, ?_⟩
  · rwa [hothers]
  · rw [hothers, ← hfold, ← hsplit, hauto]
    rfl
  · intro q hq
    obtain rfl : p = q := Option.some.inj (hp.symm.trans hq)
    have hlast : (∀ w ∈ before ++ after, movedTo w = p → w.id < x.id) ↔ ∀ w ∈ after, movedTo w ≠ p := by
      constructor
      · intro h w hw hwp
        have := h w (List.mem_append_right _ hw) hwp
        have := hafter w hw
        omega
      · intro h w hw hwp
        rcases List.mem_append.1 hw with hw | hw
        · have := hbefore w hw
          omega
        · exact absurd hwp (h w hw)
    rw [hpos] at hiff
    rw [hothers, hlast, hiff, and_comm]
    refine and_congr_right fun hne => ?_
    have hcount : (before ++ after).filter (movedTo · ≤ p) = before := by
      have hb : before.filter (movedTo · ≤ p) = before := by
        rw [List.filter_eq_self]
        intro w hw
        have := hbefore w hw
        simp only [decide_eq_true_eq]
        omega
      have ha : after.filter (movedTo · ≤ p) = [] := by
        rw [List.filter_eq_nil_iff]
        intro w hw
        have := hafter w hw
        have := hne w hw
        simp only [decide_eq_true_eq]
        omega
      rw [List.filter_append, hb, ha, List.append_nil]
    rw [hcount]

/-! ## Before and after -/

/-- The others as they are with `x` at `t`. -/
def othersAround (s : Scheduler) (x : Waiting) (t : Nat) : List Waiting :=
  (othersMoved s x.request.machine x.id).foldl (placeAround movedTo t) (othersAutomatic s x.request.machine x.id)

theorem othersAround_id {s : Scheduler} {x : Waiting} {t : Nat} : ∀ w ∈ othersAround s x t, w.id ≠ x.id := by
  intro w hw
  rw [othersAround, mem_foldl_placeAround, othersAutomatic, othersMoved, List.mem_insertionSort,
    List.mem_insertionSort, List.mem_filter, List.mem_filter] at hw
  rcases hw with ⟨-, hw⟩ | ⟨-, hw⟩ <;>
  · simp only [Bool.and_eq_true, bne_iff_ne, ne_eq] at hw
    exact hw.2

theorem Around.position {s : Scheduler} (hn : s.WaitingNodup) {x : Waiting} (hx : x ∈ s.waiting) {t : Nat}
    (h : s.Around x t) : s.position x.id = some t := by
  have hfind : s.waiting.find? (·.id == x.id) = some x := by
    cases hf : s.waiting.find? (·.id == x.id) with
    | none => exact absurd (List.find?_eq_none.1 hf x hx) (by simp)
    | some y =>
      have hid : y.id = x.id := by simpa using List.find?_some hf
      rw [hn.eq (List.mem_of_find?_eq_some hf) hx hid]
  have hlen : t ≤ (othersAround s x t).length := by
    rw [othersAround, length_foldl_placeAround]
    exact h.le
  simp only [Scheduler.position, hfind, Option.bind_eq_bind, Option.bind_some, h.order]
  exact findIdx?_insertIdx (by simp) (fun w hw => by simpa using othersAround_id w hw) hlen

theorem Around.others {s : Scheduler} {x : Waiting} {t : Nat} (h : s.Around x t) :
    (s.order x.request.machine).filter (·.id != x.id) = othersAround s x t := by
  have hlen : t ≤ (othersAround s x t).length := by
    rw [othersAround, length_foldl_placeAround]
    exact h.le
  rw [h.order]
  exact filter_insertIdx (by simp) (fun w hw => by simpa using othersAround_id w hw) hlen

theorem exists_around {s : Scheduler} (hn : s.WaitingNodup) {x : Waiting} (hx : x ∈ s.waiting) : ∃ t, s.Around x t := by
  cases hp : x.manualPosition with
  | none => exact exists_around_automatic hn hx hp
  | some p => exact exists_around_moved hn hx hp

theorem mem_moveTo {p : Nat} {x : Waiting} : ∀ {ws : List Waiting}, x ∈ ws → (ws.map (·.id)).Nodup →
    { x with manualPosition := some p } ∈ moveTo x.id p ws
  | w :: ws, hx, hn => by
    obtain ⟨hw, hws⟩ := List.nodup_cons.1 hn
    rw [moveTo]
    by_cases hid : w.id = x.id
    · rw [if_pos (by simpa using hid)]
      rcases List.mem_cons.1 hx with rfl | hx
      · exact List.mem_cons_self
      · have hmem : w.id ∈ ws.map (·.id) := by
          rw [hid]
          exact List.mem_map_of_mem hx
        exact absurd hmem hw
    · rw [if_neg (by simpa using hid)]
      rcases List.mem_cons.1 hx with rfl | hx
      · exact absurd rfl hid
      · exact List.mem_cons_of_mem _ (mem_moveTo hx hws)

/-- The move leaves the others alone. -/
theorem filter_moveTo (id p : Nat) (q : Waiting → Bool) (ws : List Waiting) :
    (moveTo id p ws).filter (fun w => q w && w.id != id) = ws.filter fun w => q w && w.id != id := by
  induction ws with
  | nil => rfl
  | cons w ws ih =>
    rw [moveTo]
    by_cases hid : w.id = id
    · rw [if_pos (by simpa using hid), List.filter_cons_of_neg (by simp [hid]), List.filter_cons_of_neg (by simp [hid])]
    · rw [if_neg (by simpa using hid), List.filter_cons, List.filter_cons, ih]

/-- What the move is for: the request is where it was moved to, and the others
stand as they stood. -/
structure Placed (s : Scheduler) (x : Waiting) (p : Nat) : Prop where
  answer : (s.reorder x.id p).2 = true
  position : (s.reorder x.id p).1.position x.id = some p
  others : ((s.reorder x.id p).1.order x.request.machine).filter (·.id != x.id) =
    (s.order x.request.machine).filter (·.id != x.id)

/-- When it does that. -/
structure Fits (s : Scheduler) (x : Waiting) (p : Nat) : Prop where
  /-- None of the others that were moved to the same position is put in later. -/
  last : ∀ w ∈ othersMoved s x.request.machine x.id, movedTo w = p → w.id < x.id
  /-- There are enough to be put in before it. -/
  enough : p ≤ (othersAutomatic s x.request.machine x.id).length +
    ((othersMoved s x.request.machine x.id).filter (movedTo · ≤ p)).length
  /-- None was moved to a position on the way from where it stood, other than
  one that is beyond the queue as it is put in. -/
  apart : ∀ k, s.position x.id = some k → ∀ i w, (othersMoved s x.request.machine x.id)[i]? = some w →
    (othersAutomatic s x.request.machine x.id).length + i < movedTo w ∨ (movedTo w ≤ p ↔ movedTo w ≤ k)

theorem reorder_of_mem {s : Scheduler} {x : Waiting} (hx : x ∈ s.waiting) (p : Nat) :
    s.reorder x.id p = ({ s with waiting := moveTo x.id p s.waiting }, true) := by
  have hwaits : s.isWaiting x.id = true := List.any_eq_true.2 ⟨x, hx, by simp⟩
  rw [reorder, if_pos hwaits]

/-- The others' own order is not touched by the move. -/
theorem othersAround_reorder {s : Scheduler} {x : Waiting} (hx : x ∈ s.waiting) (p : Nat) :
    othersAutomatic (s.reorder x.id p).1 x.request.machine x.id = othersAutomatic s x.request.machine x.id ∧
      othersMoved (s.reorder x.id p).1 x.request.machine x.id = othersMoved s x.request.machine x.id := by
  rw [reorder_of_mem hx]
  constructor
  · rw [othersAutomatic, filter_moveTo]
    rfl
  · rw [othersMoved, filter_moveTo]
    rfl

theorem nodup_others {s : Scheduler} (hn : s.WaitingNodup) (machine : String) (id : Nat) :
    (othersAutomatic s machine id ++ othersMoved s machine id).Nodup := by
  have hwaiting : s.waiting.Nodup := hn.of_map
  rw [List.nodup_append]
  refine ⟨(List.perm_insertionSort _ _).nodup_iff.2 (hwaiting.filter _),
    (List.perm_insertionSort _ _).nodup_iff.2 (hwaiting.filter _), ?_⟩
  intro a ha b hb hab
  rw [othersAutomatic, List.mem_insertionSort, List.mem_filter] at ha
  rw [othersMoved, List.mem_insertionSort, List.mem_filter, ← hab] at hb
  have hnone := ha.2
  have hsome := hb.2
  cases hm : a.manualPosition <;> simp [hm] at hnone hsome

theorem placed_iff_fits {s : Scheduler} (hn : s.WaitingNodup) {x : Waiting} (hx : x ∈ s.waiting) (p : Nat) :
    Placed s x p ↔ Fits s x p := by
  have hn' : (s.reorder x.id p).1.WaitingNodup := by
    have hids := congrArg (List.map Prod.fst) (s.reorder_sameIds x.id p).waiting
    simp only [List.map_map, Function.comp_def] at hids
    rw [WaitingNodup, hids]
    exact hn
  have hx' : { x with manualPosition := some p } ∈ (s.reorder x.id p).1.waiting := by
    rw [reorder_of_mem hx]
    exact mem_moveTo hx hn
  obtain ⟨k, hk⟩ := exists_around hn hx
  obtain ⟨t, ht⟩ := exists_around hn' hx'
  obtain ⟨hA, hM⟩ := othersAround_reorder hx p
  have hbefore := hk.position hn hx
  have hafter : (s.reorder x.id p).1.position x.id = some t := ht.position hn' hx'
  have hmoved : t = p ↔ (∀ w ∈ othersMoved s x.request.machine x.id, movedTo w = p → w.id < x.id) ∧
      p ≤ (othersAutomatic s x.request.machine x.id).length +
        ((othersMoved s x.request.machine x.id).filter (movedTo · ≤ p)).length := by
    rw [← hA, ← hM]
    exact ht.moved p rfl
  have hothers : ((s.reorder x.id p).1.order x.request.machine).filter (·.id != x.id) =
      (othersMoved s x.request.machine x.id).foldl (placeAround movedTo t)
        (othersAutomatic s x.request.machine x.id) := by
    rw [← hA, ← hM]
    exact ht.others
  have hsame := foldl_placeAround_eq_iff movedTo (t := t) (u := k) (othersMoved s x.request.machine x.id)
    (nodup_others hn x.request.machine x.id)
  constructor
  · intro h
    obtain rfl : t = p := Option.some.inj (hafter.symm.trans h.position)
    obtain ⟨hlast, henough⟩ := hmoved.1 rfl
    refine ⟨hlast, henough, ?_⟩
    intro k' hk' i w hw
    obtain rfl : k = k' := Option.some.inj (hbefore.symm.trans hk')
    exact hsame.1 (hothers.symm.trans (h.others.trans hk.others)) i w hw
  · intro h
    obtain rfl : t = p := hmoved.2 ⟨h.last, h.enough⟩
    refine ⟨?_, hafter, ?_⟩
    · rw [reorder_of_mem hx]
    · rw [hothers, hk.others]
      exact hsame.2 (h.apart k hbefore)

end Scheduler

/-- A move in any state that a daemon reaches puts the request where it was
moved to, and leaves the others as they were, exactly if it fits. -/
theorem run_placed_iff (config : Config) (seed : UInt64) (ops : List Op) {x : Waiting}
    (hx : x ∈ (Logged.run config seed ops).scheduler.waiting) (p : Nat) :
    (Logged.run config seed ops).scheduler.Placed x p ↔ (Logged.run config seed ops).scheduler.Fits x p :=
  Scheduler.placed_iff_fits (run_wellFormed config seed ops).waitingOnce hx p

/-- Three requests, and the last one moved to the front. -/
def threeRequests : List Op :=
  [.admitRequest { machine := "laptop", label := "a", estimateSecs := 1 } 1,
    .admitRequest { machine := "laptop", label := "b", estimateSecs := 1 } 2,
    .admitRequest { machine := "laptop", label := "c", estimateSecs := 1 } 3, .reorder 3 0]

/-- The second one as it waits. -/
def secondRequest : Waiting where
  id := 2
  request := { machine := "laptop", label := "b", estimateSecs := 1 }
  sinceMs := 2
  manualPosition := none

/-- It goes behind the one that was moved, ahead of the first. -/
theorem run_placed_second : (Logged.run .default 0 threeRequests).scheduler.Placed secondRequest 1 := by
  have hx : secondRequest ∈ (Logged.run .default 0 threeRequests).scheduler.waiting := by decide +kernel
  refine (run_placed_iff .default 0 threeRequests hx 1).2 ⟨by decide +kernel, by decide +kernel, ?_⟩
  intro k _ i w hw
  have hfront : ∀ w ∈ (Logged.run .default 0 threeRequests).scheduler.othersMoved
      secondRequest.request.machine secondRequest.id, Scheduler.movedTo w = 0 := by
    decide +kernel
  have := hfront w (List.mem_of_getElem? hw)
  omega

/-- Moved to the front after another one was, a request ends behind it. -/
theorem run_not_placed : ¬ ∀ (config : Config) (seed : UInt64) (ops : List Op),
    ∀ x ∈ (Logged.run config seed ops).scheduler.waiting, ∀ p,
      p < ((Logged.run config seed ops).scheduler.waitingFor x.request.machine).length →
        (Logged.run config seed ops).scheduler.Placed x p := by
  intro h
  have hx : secondRequest ∈ (Logged.run .default 0 threeRequests).scheduler.waiting := by decide +kernel
  have hplaced := h .default 0 threeRequests secondRequest hx 0 (by decide +kernel)
  have hbehind : ((Logged.run .default 0 threeRequests).scheduler.reorder secondRequest.id 0).1.position
      secondRequest.id = some 1 := by
    decide +kernel
  exact absurd (hplaced.position.symm.trans hbehind) (by decide)

end Bellows.Lease
