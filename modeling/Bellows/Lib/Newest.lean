/-
The newest of the entries of each key, from a list with the newest first; and
that such a list, cut short each time an entry is added, loses none that
cutting it short once would keep.
-/
import Mathlib.Data.List.Dedup
import Mathlib.Data.List.Nodup

namespace Newest

variable {α κ : Type} [DecidableEq κ] {key : α → κ}

/-- Of each key the first, in their order. -/
def newest (key : α → κ) : List α → List α
  | [] => []
  | a :: earlier => a :: (newest key earlier).filter fun b => key b ≠ key a

theorem newest_sublist : ∀ l : List α, (newest key l).Sublist l
  | [] => .slnil
  | _ :: l => (List.filter_sublist.trans (newest_sublist l)).cons_cons _

/-- What is kept is what no newer entry of its key precedes. -/
theorem mem_newest {a : α} : ∀ {l : List α},
    a ∈ newest key l ↔ ∃ later earlier, l = later ++ a :: earlier ∧ ∀ b ∈ later, key b ≠ key a
  | [] => by simp [newest]
  | b :: l => by
    have ih : a ∈ newest key l ↔ ∃ later earlier, l = later ++ a :: earlier ∧ ∀ b ∈ later, key b ≠ key a := mem_newest
    rw [newest, List.mem_cons, List.mem_filter, ih, decide_eq_true_iff]
    constructor
    · intro h
      obtain rfl | ⟨⟨later, earlier, rfl, hlater⟩, hne⟩ := h
      · exact ⟨[], l, rfl, by simp⟩
      · exact ⟨b :: later, earlier, rfl, List.forall_mem_cons.2 ⟨Ne.symm hne, hlater⟩⟩
    · intro h
      obtain ⟨later, earlier, heq, hlater⟩ := h
      cases later with
      | nil => exact .inl (List.cons.inj heq).1.symm
      | cons c later =>
        obtain ⟨rfl, rfl⟩ := List.cons.inj heq
        obtain ⟨hne, hlater⟩ := List.forall_mem_cons.1 hlater
        exact .inr ⟨⟨later, earlier, rfl, hlater⟩, Ne.symm hne⟩

theorem nodup_newest : ∀ l : List α, ((newest key l).map key).Nodup
  | [] => List.nodup_nil
  | a :: l => by
    rw [newest, List.map_cons, List.nodup_cons]
    refine ⟨fun h => ?_, (nodup_newest l).sublist (List.filter_sublist.map key)⟩
    obtain ⟨b, hb, heq⟩ := List.mem_map.1 h
    simp [heq] at hb

theorem mem_map_newest {k : κ} : ∀ {l : List α}, k ∈ (newest key l).map key ↔ k ∈ l.map key
  | [] => Iff.rfl
  | a :: l => by
    have ih : k ∈ (newest key l).map key ↔ k ∈ l.map key := mem_map_newest
    rw [newest, List.map_cons, List.map_cons, List.mem_cons, List.mem_cons, ← ih]
    refine or_congr_right' fun hne => ?_
    simp only [List.mem_map, List.mem_filter, decide_eq_true_iff]
    constructor
    · intro h
      obtain ⟨b, ⟨hb, -⟩, rfl⟩ := h
      exact ⟨b, hb, rfl⟩
    · intro h
      obtain ⟨b, hb, rfl⟩ := h
      exact ⟨b, ⟨hb, hne⟩, rfl⟩

/-- As many as there are keys. -/
theorem length_newest (l : List α) : (newest key l).length = (l.map key).dedup.length := by
  rw [← List.length_map (key)]
  refine List.Perm.length_eq ((List.perm_ext_iff_of_nodup (nodup_newest l) (List.nodup_dedup _)).2 fun k => ?_)
  rw [List.mem_dedup, mem_map_newest]

/-- Where at most one element goes, one more taken before makes up for it. -/
theorem take_filter_take {p : α → Bool} : ∀ {l : List α} (n : Nat), l.Pairwise (fun a b => p a || p b) →
    ((l.take (n + 1)).filter p).take n = (l.filter p).take n
  | [], n, _ => by simp
  | a :: l, n, h => by
    obtain ⟨ha, hl⟩ := List.pairwise_cons.1 h
    rw [List.take_succ_cons]
    cases hp : p a with
    | true =>
      rw [List.filter_cons_of_pos hp, List.filter_cons_of_pos hp]
      cases n with
      | zero => rfl
      | succ n => rw [List.take_succ_cons, List.take_succ_cons, take_filter_take n hl]
    | false =>
      have hall : ∀ b ∈ l, p b = true := fun b hb => by simpa [hp] using ha b hb
      rw [List.filter_cons_of_neg (by simp [hp]), List.filter_cons_of_neg (by simp [hp]), List.filter_eq_self.2 hall,
        List.filter_eq_self.2 fun b hb => hall b (List.mem_of_mem_take hb), List.take_take, Nat.min_self]

/-- Adding to a list cut short, and cutting it short again, is adding to the
whole list and cutting that short. -/
theorem take_cons_newest (a : α) (l : List α) (n : Nat) :
    (a :: ((newest key l).take n).filter fun b => key b ≠ key a).take n = (newest key (a :: l)).take n := by
  cases n with
  | zero => rfl
  | succ n =>
    rw [newest, List.take_succ_cons, List.take_succ_cons, take_filter_take n]
    have hnodup : ((newest key l).map key).Nodup := nodup_newest l
    refine (List.pairwise_map.1 hnodup).imp fun {b c} hbc => ?_
    by_cases hb : key b = key a
    · simpa [hb] using fun hc => hbc (hb.trans hc.symm)
    · simp [hb]

end Newest
