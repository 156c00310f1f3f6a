/-
Closing a set under a successor function with a worklist: take one that is
still to be looked at, put in those of its successors that are not in yet, and
look at them later.

What has been looked at has its successors in the set (`Inv.closed`), so that
when nothing is left the set is closed. A step takes one off the list and puts
on what it puts in the set: the loop ends once the set can grow no further.
-/
import Mathlib.Data.Finset.Card
import Mathlib.Logic.Relation

namespace Worklist

open Relation

variable {α : Type*} [DecidableEq α] (next : α → List α)

/-- The set, and the stack of what is still to be looked at, its top first. -/
structure State (α : Type*) where
  reached : Finset α
  frontier : List α

/-- A successor that is in the set already is passed over. -/
def visit (s : State α) (b : α) : State α :=
  if b ∈ s.reached then s else ⟨insert b s.reached, b :: s.frontier⟩

/-- The loop, which is `none` only when it has not ended after so many steps. -/
def close : Nat → State α → Option (State α)
  | 0, _ => none
  | steps + 1, s =>
    match s.frontier with
    | [] => some s
    | a :: rest => close steps ((next a).foldl visit ⟨s.reached, rest⟩)

/-- What is in the set is reached from a seed, and has its successors in the set unless it is still to be
looked at. -/
structure Inv (seeds : Finset α) (s : State α) : Prop where
  seeded : seeds ⊆ s.reached
  sound : ∀ b ∈ s.reached, ∃ a ∈ seeds, ReflTransGen (fun a b => b ∈ next a) a b
  frontier : ∀ a ∈ s.frontier, a ∈ s.reached
  closed : ∀ a ∈ s.reached, a ∉ s.frontier → ∀ b ∈ next a, b ∈ s.reached

variable {next}

/-! ## Visiting successors -/

/-- The set and the list grow by the same, which is what was not in the set. -/
theorem visit_grows (s : State α) (b : α) :
    ∃ new : Finset α, (visit s b).reached = s.reached ∪ new ∧ Disjoint s.reached new ∧
      (∀ a, a ∈ (visit s b).frontier ↔ a ∈ s.frontier ∨ a ∈ new) ∧
      (visit s b).frontier.length = s.frontier.length + new.card ∧ new ⊆ {b} ∧ b ∈ (visit s b).reached := by
  by_cases hb : b ∈ s.reached
  · exact ⟨∅, by simp [visit, hb], by simp, by simp [visit, hb], by simp [visit, hb], by simp, by simp [visit, hb]⟩
  · refine ⟨{b}, ?_, by simpa using hb, ?_, by simp [visit, hb], by simp, by simp [visit, hb]⟩
    · rw [visit, if_neg hb, Finset.union_comm]
      rfl
    · intro a
      simp [visit, hb, or_comm]

theorem foldl_visit_grows (bs : List α) (s : State α) :
    ∃ new : Finset α, (bs.foldl visit s).reached = s.reached ∪ new ∧ Disjoint s.reached new ∧
      (∀ a, a ∈ (bs.foldl visit s).frontier ↔ a ∈ s.frontier ∨ a ∈ new) ∧
      (bs.foldl visit s).frontier.length = s.frontier.length + new.card ∧ (∀ b ∈ new, b ∈ bs) ∧
      ∀ b ∈ bs, b ∈ (bs.foldl visit s).reached := by
  induction bs generalizing s with
  | nil => exact ⟨∅, by simp, by simp, by simp, by simp, by simp, by simp⟩
  | cons b bs ih =>
    obtain ⟨new, hreached, hdisjoint, hfrontier, hlength, hnew, hb⟩ := visit_grows s b
    obtain ⟨more, hreached', hdisjoint', hfrontier', hlength', hmore, hbs⟩ := ih (visit s b)
    rw [hreached, Finset.disjoint_union_left] at hdisjoint'
    refine ⟨new ∪ more, ?_, Finset.disjoint_union_right.2 ⟨hdisjoint, hdisjoint'.1⟩, fun a => ?_, ?_, fun a ha => ?_,
      fun a ha => ?_⟩
    · rw [List.foldl_cons, hreached', hreached, Finset.union_assoc]
    · rw [List.foldl_cons, hfrontier', hfrontier, Finset.mem_union, or_assoc]
    · rw [List.foldl_cons, hlength', hlength, Finset.card_union_of_disjoint hdisjoint'.2]
      omega
    · rcases Finset.mem_union.1 ha with ha | ha
      · exact Finset.mem_singleton.1 (hnew ha) ▸ List.mem_cons_self
      · exact List.mem_cons_of_mem b (hmore a ha)
    · rcases List.mem_cons.1 ha with rfl | ha
      · rw [List.foldl_cons, hreached']
        exact Finset.mem_union_left _ hb
      · exact hbs a ha

/-! ## The loop -/

omit [DecidableEq α] in
theorem Inv.start (seeds : Finset α) {frontier : List α} (h : ∀ a, a ∈ frontier ↔ a ∈ seeds) :
    Inv next seeds ⟨seeds, frontier⟩ where
  seeded := Finset.Subset.refl seeds
  sound := fun b hb => ⟨b, hb, .refl⟩
  frontier := fun a ha => (h a).1 ha
  closed := fun a ha hout => absurd ((h a).2 ha) hout

/-- Looking at one keeps the invariant. -/
theorem Inv.step {seeds reached : Finset α} {a : α} {rest : List α} (h : Inv next seeds ⟨reached, a :: rest⟩) :
    Inv next seeds ((next a).foldl visit ⟨reached, rest⟩) := by
  obtain ⟨new, hreached, -, hfrontier, -, hnew, hall⟩ := foldl_visit_grows (next a) ⟨reached, rest⟩
  have ha : a ∈ reached := h.frontier a List.mem_cons_self
  refine ⟨fun b hb => ?_, fun b hb => ?_, fun b hb => ?_, fun b hb hout c hc => ?_⟩
  · rw [hreached]
    exact Finset.mem_union_left _ (h.seeded hb)
  · rw [hreached] at hb
    rcases Finset.mem_union.1 hb with hb | hb
    · exact h.sound b hb
    · obtain ⟨seed, hseed, hpath⟩ := h.sound a ha
      exact ⟨seed, hseed, hpath.tail (hnew b hb)⟩
  · rw [hreached]
    rcases (hfrontier b).1 hb with hb | hb
    · exact Finset.mem_union_left _ (h.frontier b (List.mem_cons_of_mem a hb))
    · exact Finset.mem_union_right _ hb
  · rw [hfrontier, not_or] at hout
    rw [hreached] at hb
    obtain hb | hb := Finset.mem_union.1 hb
    · by_cases hba : b = a
      · exact hall c (hba ▸ hc)
      · have hclosed := h.closed b hb (by simp [hba, hout.1]) c hc
        rw [hreached]
        exact Finset.mem_union_left _ hclosed
    · exact absurd hb hout.2

omit [DecidableEq α] in
/-- A set that is closed holds all that is reached. -/
theorem Inv.mem_iff {seeds : Finset α} {s : State α} (h : Inv next seeds s) (hdone : s.frontier = []) (b : α) :
    b ∈ s.reached ↔ ∃ a ∈ seeds, ReflTransGen (fun a b => b ∈ next a) a b := by
  refine ⟨h.sound b, ?_⟩
  intro hreached
  obtain ⟨a, ha, hpath⟩ := hreached
  induction hpath with
  | refl => exact h.seeded ha
  | @tail b c _ hbc ih => exact h.closed b ih (by simp [hdone]) c hbc

/-- The loop ends, within as many steps as there are on the list and can still get into the set, and what it
leaves is what the seeds reach. -/
theorem close_eq_some {nodes seeds : Finset α} (hnodes : ∀ a, ∀ b ∈ next a, b ∈ nodes) {steps : Nat} {s : State α}
    (h : Inv next seeds s) (hsteps : (nodes \ s.reached).card + s.frontier.length < steps) :
    ∃ t, close next steps s = some t ∧
      ∀ b, b ∈ t.reached ↔ ∃ a ∈ seeds, ReflTransGen (fun a b => b ∈ next a) a b := by
  induction steps generalizing s with
  | zero => omega
  | succ steps ih =>
    obtain ⟨reached, frontier⟩ := s
    cases frontier with
    | nil => exact ⟨_, rfl, h.mem_iff rfl⟩
    | cons a rest =>
      obtain ⟨new, hreached, hdisjoint, -, hlength, hnew, -⟩ := foldl_visit_grows (next a) ⟨reached, rest⟩
      refine ih h.step ?_
      -- what is put on the list is no longer outside the set
      have hsub : new ⊆ nodes \ reached := fun b hb =>
        Finset.mem_sdiff.2 ⟨hnodes a b (hnew b hb), Finset.disjoint_right.1 hdisjoint hb⟩
      have hcard : (nodes \ (reached ∪ new)).card + new.card = (nodes \ reached).card := by
        have hsdiff : nodes \ (reached ∪ new) = (nodes \ reached) \ new := by
          ext b
          simp [and_assoc]
        rw [hsdiff, Finset.card_sdiff_add_card_eq_card hsub]
      rw [hreached, hlength]
      simp only [List.length_cons] at hsteps ⊢
      omega

end Worklist
