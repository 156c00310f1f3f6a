/-
What was used last, the newest first: each use goes to the front, what had its
key goes away, and the list is cut to a length.

Cutting it at every use loses nothing (`foldl_touch`): what a longer list would
put behind the cut never comes back before it.
-/
import Mathlib.Data.List.Induction
import Mathlib.Data.List.Nodup

namespace Recent

variable {α κ : Type} [DecidableEq κ] (key : α → κ)

/-- One use, in a list of at most `n`. -/
def touch (n : Nat) (kept : List α) (a : α) : List α := (a :: kept.filter fun b => key b ≠ key a).take n

/-- The latest use of each key, the newest first, of uses listed the same
way. -/
def latest : List α → List α
  | [] => []
  | a :: older => a :: (latest older).filter fun b => key b ≠ key a

theorem nodup_latest : ∀ used : List α, ((latest key used).map key).Nodup
  | [] => List.nodup_nil
  | a :: older => by
    rw [latest, List.map_cons, List.nodup_cons]
    refine ⟨fun h => ?_, (nodup_latest older).sublist (List.filter_sublist.map key)⟩
    obtain ⟨b, hb, heq⟩ := List.mem_map.1 h
    exact of_decide_eq_true (List.mem_filter.1 hb).2 heq

/-- Of every key that was used there is a use. -/
theorem exists_mem_latest (k : κ) : ∀ used : List α, (∃ a ∈ latest key used, key a = k) ↔ ∃ a ∈ used, key a = k
  | [] => Iff.rfl
  | a :: older => by
    have ih := exists_mem_latest k older
    rw [latest, List.exists_mem_cons_iff, List.exists_mem_cons_iff, ← ih]
    refine ⟨Or.imp_right fun ⟨b, hb, hk⟩ => ⟨b, (List.mem_filter.1 hb).1, hk⟩, ?_⟩
    rintro (h | ⟨b, hb, hk⟩)
    · exact .inl h
    · by_cases hka : key a = k
      · exact .inl hka
      · exact .inr ⟨b, List.mem_filter.2 ⟨hb, decide_eq_true fun h => hka (h.symm.trans hk)⟩, hk⟩

/-- Where at most one element goes, one more than is asked for is enough. -/
theorem take_filter_take (a : α) : ∀ (n : Nat) (l : List α), (l.map key).Nodup →
    ((l.take (n + 1)).filter fun b => key b ≠ key a).take n = (l.filter fun b => key b ≠ key a).take n
  | 0, _, _ => by rw [List.take_zero, List.take_zero]
  | n + 1, [], _ => rfl
  | n + 1, b :: l, h => by
    obtain ⟨hb, hl⟩ := List.nodup_cons.1 h
    by_cases hkey : key b = key a
    · -- the one that goes is in front
      have hrest : ∀ c ∈ l, decide (key c ≠ key a) = true := fun c hc =>
        decide_eq_true fun heq => hb (hkey.trans heq.symm ▸ List.mem_map_of_mem hc)
      rw [List.take_succ_cons, List.filter_cons_of_neg (by simp [hkey]), List.filter_cons_of_neg (by simp [hkey]),
        List.filter_eq_self.2 hrest, List.filter_eq_self.2 fun c hc => hrest c (List.mem_of_mem_take hc),
        List.take_take, Nat.min_self]
    · rw [List.take_succ_cons, List.filter_cons_of_pos (by simp [hkey]), List.filter_cons_of_pos (by simp [hkey]),
        List.take_succ_cons, List.take_succ_cons, take_filter_take a n l hl]

theorem touch_take {n : Nat} {l : List α} (h : (l.map key).Nodup) (a : α) :
    touch key n (l.take n) a = (a :: l.filter fun b => key b ≠ key a).take n := by
  unfold touch
  cases n with
  | zero => rfl
  | succ n => rw [List.take_succ_cons, List.take_succ_cons, take_filter_take key a n l h]

/-- **A list cut at every use is the one cut at the end.** -/
theorem foldl_touch (n : Nat) (used : List α) :
    used.foldl (touch key n) [] = (latest key used.reverse).take n := by
  induction used using List.reverseRecOn with
  | nil => exact List.take_nil.symm
  | append_singleton used a ih =>
    rw [List.foldl_append, ih, List.reverse_append]
    exact touch_take key (nodup_latest key used.reverse) a

end Recent
