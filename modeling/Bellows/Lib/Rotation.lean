/-
Logs in segments, of which a rotation starts a new one.

However many segments there have been and whatever is in them, the newest `n`
hold what was appended from the `n`-th last rotation on (`held_foldl`), and no
append needs an older one to say so (`append_take`).
-/
import Mathlib.Data.List.Basic
import Mathlib.Data.List.Induction

namespace Rotation

variable {α : Type*}

/-- An item appended, after a rotation or not. -/
structure Entry (α : Type*) where
  item : α
  rotates : Bool

/-- The segments, the newest first. -/
def append : List (List α) → Entry α → List (List α)
  | [], entry => [[entry.item]]
  | newest :: older, entry =>
    if entry.rotates then [entry.item] :: newest :: older else (newest ++ [entry.item]) :: older

/-- What the newest `n` segments hold, the oldest item first. -/
def held (n : Nat) (segments : List (List α)) : List α := (segments.take n).reverse.flatten

def rotations (entries : List (Entry α)) : Nat := entries.countP Entry.rotates

/-- The entries from the `n`-th last rotation on are `recent`. -/
def Since (n : Nat) (entries recent : List (Entry α)) : Prop :=
  ∃ before first rest, entries = before ++ recent ∧ recent = first :: rest ∧ first.rotates = true ∧ rotations recent = n

theorem rotations_append (entries others : List (Entry α)) :
    rotations (entries ++ others) = rotations entries + rotations others := List.countP_append

theorem rotations_singleton (entry : Entry α) : rotations [entry] = if entry.rotates then 1 else 0 := by
  simp [rotations, List.countP_cons]

theorem Since.concat {n : Nat} {entries recent : List (Entry α)} (h : Since n entries recent) (entry : Entry α) :
    Since (n + rotations [entry]) (entries ++ [entry]) (recent ++ [entry]) := by
  obtain ⟨before, first, rest, rfl, rfl, hfirst, hcount⟩ := h
  refine ⟨before, first, rest ++ [entry], List.append_assoc .., List.cons_append .., hfirst, ?_⟩
  rw [rotations_append, hcount]

theorem append_ne_nil (segments : List (List α)) (entry : Entry α) : append segments entry ≠ [] := by
  cases segments with
  | nil => simp [append]
  | cons newest older =>
    rw [append]
    split <;> simp

theorem foldl_append_ne_nil {initial : List (List α)} (h : initial ≠ []) (entries : List (Entry α)) :
    entries.foldl append initial ≠ [] := by
  induction entries using List.reverseRecOn with
  | nil => exact h
  | append_singleton entries entry ih =>
    rw [List.foldl_append]
    exact append_ne_nil _ entry

theorem held_append_of_rotates {segments : List (List α)} {entry : Entry α} (n : Nat) (h : entry.rotates = true)
    (hne : segments ≠ []) : held (n + 1) (append segments entry) = held n segments ++ [entry.item] := by
  obtain ⟨newest, older, rfl⟩ := List.exists_cons_of_ne_nil hne
  simp [append, h, held]

theorem held_append_of_not {segments : List (List α)} {entry : Entry α} (n : Nat) (h : entry.rotates = false)
    (hne : segments ≠ []) : held (n + 1) (append segments entry) = held (n + 1) segments ++ [entry.item] := by
  obtain ⟨newest, older, rfl⟩ := List.exists_cons_of_ne_nil hne
  simp [append, h, held]

/-- What an append does to the newest segments is told by these. -/
theorem append_take (segments : List (List α)) (entry : Entry α) (n : Nat) :
    (append (segments.take (n + 1)) entry).take (n + 1) = (append segments entry).take (n + 1) := by
  cases segments with
  | nil => rfl
  | cons newest older =>
    simp only [List.take_succ_cons, append]
    split
    · simp only [List.take_succ_cons, List.cons.injEq, true_and]
      cases n with
      | zero => rfl
      | succ n => simp [List.take_take]
    · simp [List.take_take]

/-- The newest segments hold what was appended since a rotation, and while there have been too few of them,
all of it after what is left of the first segments. -/
theorem held_foldl {initial : List (List α)} (hne : initial ≠ []) (entries : List (Entry α)) (n : Nat) :
    (∃ recent, Since (n + 1) entries recent ∧ held (n + 1) (entries.foldl append initial) = recent.map Entry.item) ∨
      rotations entries ≤ n ∧
        held (n + 1) (entries.foldl append initial) =
          held (n + 1 - rotations entries) initial ++ entries.map Entry.item := by
  induction entries using List.reverseRecOn generalizing n with
  | nil => exact .inr ⟨Nat.zero_le n, by simp [rotations]⟩
  | append_singleton entries entry ih =>
    have hsegments := foldl_append_ne_nil hne entries
    rw [List.foldl_append, List.foldl_cons, List.foldl_nil, rotations_append, rotations_singleton, List.map_append]
    cases hr : entry.rotates with
    | false =>
      rw [held_append_of_not n hr hsegments]
      rcases ih n with ⟨recent, hsince, hheld⟩ | ⟨hfew, hheld⟩
      · have hnext := hsince.concat entry
        rw [rotations_singleton, hr] at hnext
        exact .inl ⟨recent ++ [entry], hnext, by simp [hheld]⟩
      · exact .inr ⟨by simpa using hfew, by simp [hheld]⟩
    | true =>
      rw [held_append_of_rotates n hr hsegments]
      cases n with
      | zero =>
        -- the rotation is the last one
        refine .inl ⟨[entry], ⟨entries, entry, [], rfl, rfl, hr, ?_⟩, by simp [held]⟩
        simp [rotations_singleton, hr]
      | succ n =>
        rcases ih n with ⟨recent, hsince, hheld⟩ | ⟨hfew, hheld⟩
        · have hnext := hsince.concat entry
          rw [rotations_singleton, hr] at hnext
          exact .inl ⟨recent ++ [entry], hnext, by simp [hheld]⟩
        · refine .inr ⟨by simpa using hfew, ?_⟩
          simp [hheld]

end Rotation
