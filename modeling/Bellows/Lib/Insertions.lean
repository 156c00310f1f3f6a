/-
Elements put into a queue one after another, each at a position of its own or
last, the lowest position first.

What such a queue is apart from one element depends on nothing but where that
element ends (`foldl_place_cons`, `foldl_place_insertIdx`): each other one goes
to its position among the others, if that is not beyond where the element ends,
and to one less if it is (`slot`).
-/
import Mathlib.Data.List.InsertIdx
import Mathlib.Data.List.Induction
import Mathlib.Data.List.Lemmas

namespace Insertions

variable {α : Type} (pos : α → Nat)

def place (queue : List α) (a : α) : List α := queue.insertIdx (min (pos a) queue.length) a

/-- Where an element with the position `p` goes among `n` others, around one
that ends at `t`. -/
def slot (t n p : Nat) : Nat := if p ≤ t then min p n else min (p - 1) n

def placeAround (t : Nat) (others : List α) (a : α) : List α :=
  others.insertIdx (slot t others.length (pos a)) a

theorem slot_le (t n p : Nat) : slot t n p ≤ n := by
  unfold slot
  split <;> omega

/-- An element whose position is beyond the others goes last either way. -/
theorem slot_eq_iff {t u n p : Nat} : slot t n p = slot u n p ↔ n < p ∨ (p ≤ t ↔ p ≤ u) := by
  unfold slot
  split <;> split <;> omega

theorem placeAround_congr {t u : Nat} {others : List α} {a : α}
    (h : others.length < pos a ∨ (pos a ≤ t ↔ pos a ≤ u)) : placeAround pos t others a = placeAround pos u others a := by
  rw [placeAround, placeAround, slot_eq_iff.2 h]

@[simp] theorem length_placeAround (t : Nat) (others : List α) (a : α) :
    (placeAround pos t others a).length = others.length + 1 :=
  List.length_insertIdx_of_le_length (slot_le _ _ _) a

@[simp] theorem length_foldl_placeAround (t : Nat) (ms others : List α) :
    (ms.foldl (placeAround pos t) others).length = others.length + ms.length := by
  induction ms generalizing others with
  | nil => rfl
  | cons m ms ih =>
    rw [List.foldl_cons, ih, length_placeAround, List.length_cons]
    omega

/-! ## Around one element -/

omit pos in
theorem insertIdx_append_length (x : α) (before after : List α) :
    (before ++ after).insertIdx before.length x = before ++ x :: after := by
  induction before with
  | nil => simp
  | cons b before ih => simp [ih]

/-- Put in at or before the element, which moves on. -/
theorem place_before {k t : Nat} {others : List α} (x : α) {a : α} (hk : k ≤ others.length) (ha : pos a ≤ k)
    (ht : k ≤ t) : place pos (others.insertIdx k x) a = (placeAround pos t others a).insertIdx (k + 1) x := by
  have hslot : slot t others.length (pos a) = pos a := by
    unfold slot
    rw [if_pos (by omega)]
    omega
  have hmin : min (pos a) (others.insertIdx k x).length = pos a := by
    rw [List.length_insertIdx_of_le_length hk]
    omega
  rw [place, placeAround, hslot, hmin, List.insertIdx_comm a x ha hk]

/-- Put in after the element. -/
theorem place_after {k : Nat} {others : List α} (x : α) {a : α} (hk : k ≤ others.length) (ha : k < pos a) :
    place pos (others.insertIdx k x) a = (placeAround pos k others a).insertIdx k x := by
  have hslot : slot k others.length (pos a) = min (pos a - 1) others.length := by
    unfold slot
    rw [if_neg (by omega)]
  have hmin : min (pos a) (others.insertIdx k x).length = min (pos a - 1) others.length + 1 := by
    rw [List.length_insertIdx_of_le_length hk]
    omega
  rw [place, placeAround, hslot, hmin, List.insertIdx_comm x a (by omega) (by omega)]

/-- An element that is there already ends where it was, or further on by those
put in before it; which ones these are is told by where it ends. -/
theorem foldl_place_insertIdx (x : α) : ∀ {ms others : List α} {k : Nat}, k ≤ others.length →
    ms.Pairwise (fun a b => pos a ≤ pos b) → ∃ t, k ≤ t ∧ t ≤ others.length + ms.length ∧
      (t = k ↔ ∀ m ∈ ms, k < pos m) ∧
      ms.foldl (place pos) (others.insertIdx k x) = (ms.foldl (placeAround pos t) others).insertIdx t x
  | [], others, k, hk, _ => ⟨k, le_refl k, hk, by simp, rfl⟩
  | m :: ms, others, k, hk, hsorted => by
    obtain ⟨hm, hms⟩ := List.pairwise_cons.1 hsorted
    by_cases hle : pos m ≤ k
    · have hlen : k + 1 ≤ (placeAround pos k others m).length := by simp; omega
      obtain ⟨t, hkt, htl, -, hfold⟩ := foldl_place_insertIdx x hlen hms
      have hsame : placeAround pos k others m = placeAround pos t others m :=
        placeAround_congr pos (.inr (by omega))
      refine ⟨t, by omega, ?_, ?_, ?_⟩
      · simp only [length_placeAround, List.length_cons] at htl ⊢
        omega
      · constructor
        · intro ht
          omega
        · intro hall
          have := hall m List.mem_cons_self
          omega
      · rw [List.foldl_cons, place_before pos x hk hle (le_refl k), hfold, hsame, List.foldl_cons]
    · have hlt : k < pos m := by omega
      have hlen : k ≤ (placeAround pos k others m).length := by simp; omega
      have hafter : ∀ a ∈ ms, k < pos a := fun a ha => hlt.trans_le (hm a ha)
      obtain ⟨t, -, htl, hiff, hfold⟩ := foldl_place_insertIdx x hlen hms
      obtain rfl := hiff.2 hafter
      refine ⟨t, le_refl t, ?_, ?_, ?_⟩
      · simp only [length_placeAround, List.length_cons] at htl ⊢
        omega
      · exact ⟨fun _ => List.forall_mem_cons.2 ⟨hlt, hafter⟩, fun _ => rfl⟩
      · rw [List.foldl_cons, place_after pos x hk hlt, hfold, List.foldl_cons]

/-- Put in before the element is there. -/
theorem foldl_place_eq {t : Nat} : ∀ {ms others : List α},
    (∀ m ∈ ms, min (pos m) (others.length + ms.length) ≤ t) →
      ms.foldl (place pos) others = ms.foldl (placeAround pos t) others
  | [], others, _ => rfl
  | m :: ms, others, h => by
    obtain ⟨hm, hms⟩ := List.forall_mem_cons.1 h
    have hslot : slot t others.length (pos m) = min (pos m) others.length := by
      simp only [List.length_cons] at hm
      unfold slot
      split <;> omega
    have hplace : place pos others m = placeAround pos t others m := by
      rw [place, placeAround, hslot]
    have hrest : ∀ a ∈ ms, min (pos a) ((placeAround pos t others m).length + ms.length) ≤ t := by
      intro a ha
      have := hms a ha
      simp only [length_placeAround, List.length_cons] at this ⊢
      omega
    rw [List.foldl_cons, List.foldl_cons, hplace, foldl_place_eq hrest]

/-- An element put in with the others ends at its position exactly if there
are enough before it, and none at the same position comes after it. -/
theorem foldl_place_cons (x : α) (others : List α) {before after : List α}
    (hsorted : (before ++ x :: after).Pairwise fun a b => pos a ≤ pos b) :
    ∃ t, t ≤ others.length + (before ++ after).length ∧
      (before ++ x :: after).foldl (place pos) others =
        ((before ++ after).foldl (placeAround pos t) others).insertIdx t x ∧
      (t = pos x ↔ pos x ≤ others.length + before.length ∧ ∀ m ∈ after, pos m ≠ pos x) := by
  obtain ⟨hbefore, htail, hcross⟩ := List.pairwise_append.1 hsorted
  obtain ⟨hx, hafter⟩ := List.pairwise_cons.1 htail
  have hlt (m : α) (hm : m ∈ before) : pos m ≤ pos x := hcross m hm x List.mem_cons_self
  -- the queue that `x` is put into
  have hqueue (t : Nat) (ht : min (pos x) (others.length + before.length) ≤ t) :
      before.foldl (place pos) others = before.foldl (placeAround pos t) others := by
    apply foldl_place_eq
    intro m hm
    have := hlt m hm
    omega
  have hlen : (before.foldl (place pos) others).length = others.length + before.length := by
    rw [hqueue _ (le_refl _), length_foldl_placeAround]
  obtain ⟨t, hkt, htl, hiff, hfold⟩ := foldl_place_insertIdx pos x
    (show min (pos x) (others.length + before.length) ≤ (before.foldl (place pos) others).length by omega) hafter
  refine ⟨t, ?_, ?_, ?_⟩
  · rw [List.length_append]
    omega
  · rw [List.foldl_append, List.foldl_cons, place, hlen, hfold, hqueue t hkt, List.foldl_append]
  · constructor
    · intro ht
      have hle : pos x ≤ others.length + before.length := by
        by_contra hgt
        have hk := hiff.2 fun m hm => by have := hx m hm; omega
        omega
      refine ⟨hle, fun m hm => ?_⟩
      have := hiff.1 (by omega) m hm
      omega
    · intro ⟨hle, hne⟩
      have hk := hiff.2 fun m hm => by have := hx m hm; have := hne m hm; omega
      omega

/-! ## What the others are -/

omit pos in
/-- The queue without the one element that a test tells apart. -/
theorem filter_insertIdx {q : α → Bool} {x : α} (hx : q x = false) : ∀ {queue : List α} {i : Nat},
    (∀ a ∈ queue, q a = true) → i ≤ queue.length → (queue.insertIdx i x).filter q = queue
  | queue, 0, hqueue, _ => by
    rw [List.insertIdx_zero, List.filter_cons_of_neg (by simp [hx]), List.filter_eq_self.2 hqueue]
  | [], i + 1, _, hi => by simp at hi
  | a :: queue, i + 1, hqueue, hi => by
    obtain ⟨ha, hrest⟩ := List.forall_mem_cons.1 hqueue
    rw [List.insertIdx_succ_cons, List.filter_cons_of_pos ha, filter_insertIdx hx hrest (by simpa using hi)]

omit pos in
theorem findIdx?_insertIdx {q : α → Bool} {x : α} (hx : q x = true) : ∀ {queue : List α} {i : Nat},
    (∀ a ∈ queue, q a = false) → i ≤ queue.length → (queue.insertIdx i x).findIdx? q = some i
  | queue, 0, _, _ => by rw [List.insertIdx_zero, List.findIdx?_cons, if_pos hx]
  | [], i + 1, _, hi => by simp at hi
  | a :: queue, i + 1, hqueue, hi => by
    obtain ⟨ha, hrest⟩ := List.forall_mem_cons.1 hqueue
    rw [List.insertIdx_succ_cons, List.findIdx?_cons, if_neg (by simp [ha]),
      findIdx?_insertIdx hx hrest (by simpa using hi)]
    rfl

/-- Where an element was put in tells its position in the queue. -/
theorem idxOf_insertIdx [DecidableEq α] {a : α} : ∀ {queue : List α} {i : Nat}, a ∉ queue → i ≤ queue.length →
    (queue.insertIdx i a).idxOf a = i
  | queue, 0, _, _ => by simp
  | [], i + 1, _, hi => by simp at hi
  | b :: queue, i + 1, ha, hi => by
    obtain ⟨hb, hqueue⟩ := List.ne_and_not_mem_of_not_mem_cons ha
    rw [List.insertIdx_succ_cons, List.idxOf_cons_ne _ (Ne.symm hb),
      idxOf_insertIdx hqueue (by simpa using hi)]

theorem mem_foldl_placeAround {t : Nat} {a : α} (ms others : List α) :
    a ∈ ms.foldl (placeAround pos t) others ↔ a ∈ others ∨ a ∈ ms := by
  induction ms generalizing others with
  | nil => simp
  | cons m ms ih =>
    rw [List.foldl_cons, ih, placeAround, List.mem_insertIdx (slot_le _ _ _), List.mem_cons]
    tauto

/-- Two queues of the same elements agree only if each element was put in at
the same place. -/
theorem foldl_placeAround_eq_iff [DecidableEq α] {t u : Nat} {others : List α} (ms : List α)
    (hnodup : (others ++ ms).Nodup) :
    ms.foldl (placeAround pos t) others = ms.foldl (placeAround pos u) others ↔
      ∀ i m, ms[i]? = some m → others.length + i < pos m ∨ (pos m ≤ t ↔ pos m ≤ u) := by
  induction ms using List.reverseRecOn with
  | nil => simp
  | append_singleton ms m ih =>
    rw [← List.append_assoc] at hnodup
    have hms := ih (List.nodup_append.1 hnodup).1
    have hfresh (v : Nat) : m ∉ ms.foldl (placeAround pos v) others := by
      intro hm
      rw [mem_foldl_placeAround, ← List.mem_append] at hm
      exact (List.nodup_append.1 hnodup).2.2 m hm m (by simp) rfl
    have hslots : (∀ i a, (ms ++ [m])[i]? = some a → others.length + i < pos a ∨ (pos a ≤ t ↔ pos a ≤ u)) ↔
        (∀ i a, ms[i]? = some a → others.length + i < pos a ∨ (pos a ≤ t ↔ pos a ≤ u)) ∧
          (others.length + ms.length < pos m ∨ (pos m ≤ t ↔ pos m ≤ u)) := by
      constructor
      · intro h
        refine ⟨fun i a hi => h i a ?_, h ms.length m (by simp)⟩
        rw [List.getElem?_append_left (List.getElem?_eq_some_iff.1 hi).1, hi]
      · intro ⟨h, hlast⟩ i a hi
        by_cases hlt : i < ms.length
        · exact h i a (by rwa [List.getElem?_append_left hlt] at hi)
        · rw [List.getElem?_append_right (by omega)] at hi
          obtain ⟨hzero, ha⟩ := List.getElem?_eq_some_iff.1 hi
          obtain rfl : i = ms.length := by
            simp only [List.length_singleton] at hzero
            omega
          simp only [Nat.sub_self, List.getElem_cons_zero] at ha
          subst ha
          exact hlast
    rw [hslots, ← hms, List.foldl_append, List.foldl_append, List.foldl_cons, List.foldl_cons, List.foldl_nil,
      List.foldl_nil]
    constructor
    · intro heq
      have hindex : slot t (others.length + ms.length) (pos m) = slot u (others.length + ms.length) (pos m) := by
        have hidx := congrArg (List.idxOf m) heq
        rw [placeAround, placeAround, idxOf_insertIdx (hfresh t) (slot_le _ _ _),
          idxOf_insertIdx (hfresh u) (slot_le _ _ _)] at hidx
        simpa using hidx
      refine ⟨?_, slot_eq_iff.1 hindex⟩
      rw [placeAround, placeAround, length_foldl_placeAround, length_foldl_placeAround, hindex] at heq
      exact List.insertIdx_injective _ m heq
    · intro ⟨heq, hlast⟩
      rw [heq, placeAround_congr]
      simpa using hlast

end Insertions
