/-
File trees as finite maps from paths, and what the operations on subtrees do
at each path: what a move or a removal does not touch stays as it was.
-/
import Bellows.Lib.Text

namespace Trees

open Text

variable {α ν : Type} [DecidableEq α]

/-- What is at which path, a path being the names on the way from the root. The
first entry of a path counts. -/
abbrev Tree (α ν : Type) := List (List α × ν)

variable (t s : Tree α ν) (dir src dst path : List α) (node : ν)

def nodeAt : Option ν := (t.find? (·.1 = path)).map (·.2)

def put : Tree α ν := (path, node) :: t

/-- What is at and under `dir`. -/
def sub : Tree α ν := t.filterMap fun entry => (stripPrefix? dir entry.1).map (·, entry.2)

/-- Nothing at and under `dir` any more. -/
def prune : Tree α ν := t.filter fun entry => ¬ dir <+: entry.1

/-- At and under `dir` what `s` has, and nothing else. -/
def graft : Tree α ν := s.map (fun entry => (dir ++ entry.1, entry.2)) ++ prune t dir

def move : Tree α ν := graft (prune t src) (sub t src) dst

/-- Nothing is under `dir`. -/
def emptyAt : Bool := t.all fun entry => ¬ (dir <+: entry.1 ∧ dir ≠ entry.1)

variable {t s dir src dst path node}

@[simp] theorem nodeAt_nil : nodeAt ([] : Tree α ν) path = none := rfl

theorem nodeAt_cons (entry : List α × ν) :
    nodeAt (entry :: t) path = if entry.1 = path then some entry.2 else nodeAt t path := by
  unfold nodeAt
  by_cases h : entry.1 = path <;> simp [h]

theorem nodeAt_put (other : List α) : nodeAt (put t path node) other = if path = other then some node else nodeAt t other :=
  nodeAt_cons _

theorem nodeAt_append : nodeAt (s ++ t) path = (nodeAt s path).or (nodeAt t path) := by
  unfold nodeAt
  rw [List.find?_append, Option.map_or]

theorem nodeAt_isSome_iff : (nodeAt t path).isSome ↔ ∃ entry ∈ t, entry.1 = path := by
  simp [nodeAt]

theorem nodeAt_prune (other : List α) : nodeAt (prune t dir) other = if dir <+: other then none else nodeAt t other := by
  induction t with
  | nil => simp [prune]
  | cons entry t ih =>
    simp only [prune] at ih
    by_cases hdir : dir <+: entry.1
    · rw [prune, List.filter_cons_of_neg (by simpa using hdir), ih, nodeAt_cons]
      by_cases hother : entry.1 = other
      · rw [if_pos (hother ▸ hdir), if_pos (hother ▸ hdir)]
      · rw [if_neg hother]
    · rw [prune, List.filter_cons_of_pos (by simpa using hdir), nodeAt_cons, nodeAt_cons, ih]
      by_cases hother : entry.1 = other
      · rw [if_pos hother, if_pos hother, if_neg (hother ▸ hdir)]
      · rw [if_neg hother, if_neg hother]

theorem nodeAt_sub (other : List α) : nodeAt (sub t dir) other = nodeAt t (dir ++ other) := by
  induction t with
  | nil => rfl
  | cons entry t ih =>
    simp only [sub] at ih
    by_cases hdir : dir <+: entry.1
    · obtain ⟨rest, hrest⟩ := hdir
      rw [sub, List.filterMap_cons_some (b := (rest, entry.2)) (by rw [← hrest, stripPrefix?_append]; rfl), nodeAt_cons,
        nodeAt_cons, ih, ← hrest]
      simp
    · have hne : entry.1 ≠ dir ++ other := fun h => hdir (h ▸ List.prefix_append _ _)
      rw [sub, List.filterMap_cons_none (by rw [stripPrefix?_eq_none.2 hdir]; rfl), nodeAt_cons, if_neg hne, ih]

theorem nodeAt_map_append (other : List α) :
    nodeAt (s.map fun entry => (dir ++ entry.1, entry.2)) (dir ++ other) = nodeAt s other := by
  induction s with
  | nil => rfl
  | cons entry s ih => simp [nodeAt_cons, ih]

theorem nodeAt_map_of_not_prefix {other : List α} (h : ¬ dir <+: other) :
    nodeAt (s.map fun entry => (dir ++ entry.1, entry.2)) other = none := by
  induction s with
  | nil => rfl
  | cons entry s ih =>
    have hne : dir ++ entry.1 ≠ other := fun heq => h (heq ▸ List.prefix_append _ _)
    rw [List.map_cons, nodeAt_cons, if_neg hne, ih]

theorem nodeAt_graft_under (other : List α) : nodeAt (graft t s dir) (dir ++ other) = nodeAt s other := by
  rw [graft, nodeAt_append, nodeAt_map_append, nodeAt_prune, if_pos (List.prefix_append _ _), Option.or_none]

theorem nodeAt_graft_of_not_prefix {other : List α} (h : ¬ dir <+: other) : nodeAt (graft t s dir) other = nodeAt t other := by
  rw [graft, nodeAt_append, nodeAt_map_of_not_prefix h, nodeAt_prune, if_neg h, Option.none_or]

/-! ## Moving -/

/-- What is moved is at its destination. -/
theorem nodeAt_move_under (other : List α) : nodeAt (move t src dst) (dst ++ other) = nodeAt t (src ++ other) := by
  rw [move, nodeAt_graft_under, nodeAt_sub]

/-- And no longer where it was. -/
theorem nodeAt_move_source {other : List α} (hdst : ¬ dst <+: other) (hsrc : src <+: other) :
    nodeAt (move t src dst) other = none := by
  rw [move, nodeAt_graft_of_not_prefix hdst, nodeAt_prune, if_pos hsrc]

/-- Everything else stays. -/
theorem nodeAt_move_of_not_prefix {other : List α} (hdst : ¬ dst <+: other) (hsrc : ¬ src <+: other) :
    nodeAt (move t src dst) other = nodeAt t other := by
  rw [move, nodeAt_graft_of_not_prefix hdst, nodeAt_prune, if_neg hsrc]

theorem emptyAt_iff : emptyAt t dir = true ↔ ∀ other, other ≠ [] → nodeAt t (dir ++ other) = none := by
  rw [emptyAt, List.all_eq_true]
  constructor
  · intro h other hother
    rw [← Option.not_isSome_iff_eq_none, nodeAt_isSome_iff]
    intro hmem
    obtain ⟨entry, he, heq⟩ := hmem
    have hentry := h entry he
    rw [heq] at hentry
    simp [hother] at hentry
  · intro h entry he
    rw [decide_eq_true_iff]
    intro hunder
    obtain ⟨⟨other, hother⟩, hne⟩ := hunder
    have hnil : other ≠ [] := fun hnil => hne (by rw [← hother, hnil, List.append_nil])
    have hnone := h other hnil
    rw [← Option.not_isSome_iff_eq_none, nodeAt_isSome_iff] at hnone
    exact hnone ⟨entry, he, hother.symm⟩

end Trees
