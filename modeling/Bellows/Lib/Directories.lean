/-
Trees of a file system: every node lies in a directory. What is put into a
directory, and what is removed with all under it, leaves such a tree.
-/
import Mathlib.Data.List.Dedup
import Mathlib.Data.List.MinMax
import Mathlib.Order.Nat
import Bellows.Lib.Trees

namespace Trees

variable {α ν : Type} [DecidableEq α]

/-- The names in a directory. -/
def children (t : Tree α ν) (dir : List α) : List α :=
  (t.filterMap fun entry => match Text.stripPrefix? dir entry.1 with
    | some [name] => some name
    | _ => none).dedup

/-- How deep the tree is at most. -/
def depth (t : Tree α ν) : Nat := (t.map fun entry => entry.1.length).foldr max 0

/-- The root is a directory, and what every other node lies in. -/
structure Grounded (directory : ν) (t : Tree α ν) : Prop where
  root : nodeAt t [] = some directory
  parent : ∀ dir name, (nodeAt t (dir ++ [name])).isSome → nodeAt t dir = some directory

variable {t : Tree α ν} {directory : ν} {dir path : List α} {name : α}

theorem mem_children : name ∈ children t dir ↔ (nodeAt t (dir ++ [name])).isSome := by
  rw [children, List.mem_dedup, List.mem_filterMap, nodeAt_isSome_iff]
  constructor
  · intro h
    obtain ⟨entry, hentry, hname⟩ := h
    refine ⟨entry, hentry, ?_⟩
    split at hname
    · next only hstrip =>
      obtain rfl := Option.some.inj hname
      exact Text.stripPrefix?_eq_some.1 hstrip
    · cases hname
  · intro h
    obtain ⟨entry, hentry, hpath⟩ := h
    exact ⟨entry, hentry, by rw [hpath, Text.stripPrefix?_append]⟩

theorem nodup_children : (children t dir).Nodup := List.nodup_dedup _

theorem length_le_depth (h : (nodeAt t path).isSome) : path.length ≤ depth t := by
  obtain ⟨entry, hentry, rfl⟩ := nodeAt_isSome_iff.1 h
  have hlength : entry.1.length ∈ t.map fun entry => entry.1.length := List.mem_map_of_mem hentry
  exact List.le_max_of_le hlength le_rfl

/-- To be seen entry by entry. -/
theorem grounded_of_entries (hroot : nodeAt t [] = some directory)
    (h : ∀ entry ∈ t, entry.1 = [] ∨ nodeAt t entry.1.dropLast = some directory) : Grounded directory t := by
  refine ⟨hroot, fun dir name hnode => ?_⟩
  obtain ⟨entry, hentry, hpath⟩ := nodeAt_isSome_iff.1 hnode
  rcases h entry hentry with hnil | hparent
  · simp [hnil] at hpath
  · rwa [hpath, List.dropLast_concat] at hparent

theorem Grounded.directory_of_append (h : Grounded directory t) {rest : List α} (hrest : rest ≠ [])
    (hnode : (nodeAt t (dir ++ rest)).isSome) : nodeAt t dir = some directory := by
  induction rest using List.reverseRecOn with
  | nil => exact absurd rfl hrest
  | append_singleton rest name ih =>
    rw [← List.append_assoc] at hnode
    have hparent := h.parent _ _ hnode
    cases rest with
    | nil => rwa [List.append_nil] at hparent
    | cons next rest => exact ih (List.cons_ne_nil _ _) (by rw [hparent]; rfl)

/-- On the way to a directory there are directories. -/
theorem Grounded.directory_of_prefix (h : Grounded directory t) (hpath : nodeAt t path = some directory)
    (hdir : dir <+: path) : nodeAt t dir = some directory := by
  obtain ⟨rest, rfl⟩ := hdir
  cases rest with
  | nil => rwa [List.append_nil] at hpath
  | cons name rest => exact h.directory_of_append (List.cons_ne_nil _ _) (by rw [hpath]; rfl)

/-- A new node in a directory; another node gives way if it is no directory. -/
theorem Grounded.put [DecidableEq ν] (h : Grounded directory t) {node : ν}
    (hdir : nodeAt t path.dropLast = some directory) (hfree : nodeAt t path ≠ some directory) :
    Grounded directory (put t path node) := by
  have hkeep : ∀ dir, nodeAt t dir = some directory → nodeAt (Trees.put t path node) dir = some directory := by
    intro dir hnode
    rw [nodeAt_put, if_neg]
    · exact hnode
    · exact fun heq => hfree (heq ▸ hnode)
  refine ⟨hkeep [] h.root, fun dir name hnode => hkeep dir ?_⟩
  rw [nodeAt_put] at hnode
  split at hnode
  · next heq => rwa [heq, List.dropLast_concat] at hdir
  · exact h.parent dir name hnode

theorem Grounded.prune (h : Grounded directory t) (hpath : path ≠ []) : Grounded directory (prune t path) := by
  refine ⟨?_, fun dir name hnode => ?_⟩
  · rw [nodeAt_prune, if_neg (by simpa using hpath), h.root]
  · rw [nodeAt_prune] at hnode ⊢
    split at hnode
    · cases hnode
    · next hpre =>
      rw [if_neg fun hdir => hpre (hdir.trans (List.prefix_append _ _))]
      exact h.parent dir name hnode

end Trees
