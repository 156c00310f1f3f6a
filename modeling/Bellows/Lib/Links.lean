/-
Resolving paths in a tree with symbolic links, as a kernel does: name by name
from a directory, a link giving way to its target, up to so many links.

A path that leads somewhere goes on leading there when more is put where there
was nothing, or more is seen (`resolve_extends`), and a name behind it leads
into the directory that it leads to (`resolve_concat`).
-/
import Mathlib.Data.List.Basic

namespace Links

inductive Component (α : Type) where
  | rootDir
  | curDir
  | parentDir
  | normal (name : α)
  deriving DecidableEq, Repr

/-- What can be at a place, as far as paths are concerned. -/
inductive Kind (α : Type) where
  | directory
  | link (target : List (Component α))
  | other
  deriving DecidableEq, Repr

variable {α : Type} [DecidableEq α]

section Resolve

variable (look : List α → Option (Kind α))

/-- From a place on. A link's target, and what is left of the path, are for `follow`. -/
def walk (follow : List α → List (Component α) → Option (List α)) : List α → List (Component α) → Option (List α)
  | place, [] => some place
  | place, component :: rest =>
    if look place = some .directory then
      match component with
      | .rootDir => walk follow [] rest
      | .curDir => walk follow place rest
      | .parentDir => walk follow place.dropLast rest
      | .normal name =>
        match look (place ++ [name]) with
        | none => none
        | some (.link target) => follow place (target ++ rest)
        | some _ => walk follow (place ++ [name]) rest
    else none

/-- The place that a path leads to from another, through at most so many links. -/
def resolve : Nat → List α → List (Component α) → Option (List α)
  | 0 => walk look fun _ _ => none
  | links + 1 => walk look (resolve links)

/-- The place of a path's last name, which is not followed; anything else is. -/
def locate (links : Nat) (cwd : List α) (path : List (Component α)) : Option (List α) :=
  match path.getLast? with
  | some (.normal name) =>
    match resolve look links cwd path.dropLast with
    | some dir => if look dir = some .directory then some (dir ++ [name]) else none
    | none => none
  | _ => resolve look links cwd path

end Resolve

variable {look look' : List α → Option (Kind α)}

theorem locate_concat_eq_some {links : Nat} {cwd place : List α} {path : List (Component α)} {name : α} :
    locate look links cwd (path ++ [.normal name]) = some place ↔
      ∃ dir, resolve look links cwd path = some dir ∧ look dir = some .directory ∧ place = dir ++ [name] := by
  simp only [locate, List.getLast?_concat, List.dropLast_concat]
  cases resolve look links cwd path with
  | none => simp
  | some dir => simp [eq_comm]

/-! ## What is there already -/

/-- What is seen at a place stays, where it is not a directory that looked like
something else; there may be more. -/
def Extends (look' look : List α → Option (Kind α)) : Prop :=
  ∀ place kind, look place = some kind → look' place = some kind ∨ kind = .other ∧ look' place = some .directory

omit [DecidableEq α] in
theorem Extends.directory (h : Extends look' look) {place : List α} (hd : look place = some .directory) :
    look' place = some .directory := (h place _ hd).resolve_right (by simp)

theorem walk_extends (h : Extends look' look) {follow follow' : List α → List (Component α) → Option (List α)}
    (hfollow : ∀ from' path place, follow from' path = some place → follow' from' path = some place)
    (path : List (Component α)) :
    ∀ {from' place : List α}, walk look follow from' path = some place → walk look' follow' from' path = some place := by
  induction path with
  | nil => exact fun hwalk => hwalk
  | cons component rest ih =>
    intro from' place hwalk
    simp only [walk] at hwalk ⊢
    obtain ⟨hdir, hwalk⟩ := Option.ite_none_right_eq_some.1 hwalk
    rw [if_pos (h.directory hdir)]
    cases component with
    | rootDir => exact ih hwalk
    | curDir => exact ih hwalk
    | parentDir => exact ih hwalk
    | normal name =>
      dsimp only at hwalk ⊢
      cases hlook : look (from' ++ [name]) with
      | none => simp [hlook] at hwalk
      | some kind =>
        rw [hlook] at hwalk
        rcases h _ kind hlook with hsame | ⟨rfl, hdirectory⟩
        · rw [hsame]
          cases kind with
          | directory => exact ih hwalk
          | link target => exact hfollow _ _ _ hwalk
          | other => exact ih hwalk
        · rw [hdirectory]
          exact ih hwalk

/-- A path leads where it led. -/
theorem resolve_extends (h : Extends look' look) (links : Nat) {cwd place : List α} {path : List (Component α)}
    (hresolve : resolve look links cwd path = some place) : resolve look' links cwd path = some place := by
  induction links generalizing cwd path place with
  | zero => exact walk_extends h (fun _ _ _ hnone => absurd hnone (by simp)) path hresolve
  | succ links ih => exact walk_extends h (fun _ _ _ hfollow => ih hfollow) path hresolve

/-! ## Without links -/

/-- Names of directories only are not followed. -/
theorem walk_directories {follow : List α → List (Component α) → Option (List α)} {rest : List (Component α)} (path : List α) :
    ∀ {from' : List α}, (∀ dir, dir <+: path → look (from' ++ dir) = some .directory) →
      walk look follow from' (path.map .normal ++ rest) = walk look follow (from' ++ path) rest := by
  induction path with
  | nil => simp
  | cons name path ih =>
    intro from' h
    have hfrom : look from' = some .directory := by simpa using h [] List.nil_prefix
    have hname : look (from' ++ [name]) = some .directory := h [name] (by simp)
    have hrest : ∀ dir, dir <+: path → look (from' ++ [name] ++ dir) = some .directory := by
      intro dir hdir
      rw [List.append_assoc]
      exact h (name :: dir) (List.cons_prefix_cons.2 ⟨rfl, hdir⟩)
    rw [List.map_cons, List.cons_append, walk, if_pos hfrom]
    simp only [hname]
    rw [ih hrest, List.append_assoc]
    rfl

/-- The last name of a path, where the others are those of directories. -/
theorem walk_name {dir : List α} {name : α} (hdirs : ∀ prior, prior <+: dir → look prior = some .directory)
    (follow : List α → List (Component α) → Option (List α)) :
    walk look follow [] ((dir ++ [name]).map .normal) = match look (dir ++ [name]) with
      | none => none
      | some (.link target) => follow dir (target ++ [])
      | some _ => some (dir ++ [name]) := by
  have hdir : look dir = some .directory := hdirs dir (List.prefix_refl _)
  rw [List.map_append, walk_directories dir (by simpa using hdirs), List.nil_append, List.map_singleton, walk, if_pos hdir]
  rfl

/-- A name, no link, in a directory that is reached through none. -/
theorem resolve_name {dir : List α} {name : α} {kind : Kind α} (hdirs : ∀ prior, prior <+: dir → look prior = some .directory)
    (hname : look (dir ++ [name]) = some kind) (hkind : ∀ target, kind ≠ .link target) (links : Nat) :
    resolve look links [] ((dir ++ [name]).map .normal) = some (dir ++ [name]) := by
  have hwalk (follow : List α → List (Component α) → Option (List α)) :
      walk look follow [] ((dir ++ [name]).map .normal) = some (dir ++ [name]) := by
    rw [walk_name hdirs, hname]
    cases kind with
    | link target => exact absurd rfl (hkind target)
    | directory | other => rfl
  cases links <;> exact hwalk _

/-- Nothing is there. -/
theorem resolve_missing {dir : List α} {name : α} (hdirs : ∀ prior, prior <+: dir → look prior = some .directory)
    (hname : look (dir ++ [name]) = none) (links : Nat) : resolve look links [] ((dir ++ [name]).map .normal) = none := by
  have hwalk (follow : List α → List (Component α) → Option (List α)) :
      walk look follow [] ((dir ++ [name]).map .normal) = none := by
    rw [walk_name hdirs, hname]
  cases links <;> exact hwalk _

/-! ## One name more -/

theorem walk_concat {follow : List α → List (Component α) → Option (List α)} {name : α} {dir : List α} {kind : Kind α}
    (hdir : look dir = some .directory) (hname : look (dir ++ [name]) = some kind) (hkind : ∀ target, kind ≠ .link target)
    (hfollow : ∀ from' path, follow from' path = some dir → follow from' (path ++ [.normal name]) = some (dir ++ [name]))
    (path : List (Component α)) :
    ∀ {from' : List α}, walk look follow from' path = some dir →
      walk look follow from' (path ++ [.normal name]) = some (dir ++ [name]) := by
  induction path with
  | nil =>
    intro from' hwalk
    obtain rfl : from' = dir := Option.some.inj hwalk
    cases kind with
    | link target => exact absurd rfl (hkind target)
    | directory | other => simp [walk, hdir, hname]
  | cons component rest ih =>
    intro from' hwalk
    simp only [List.cons_append, walk] at hwalk ⊢
    obtain ⟨hfrom, hwalk⟩ := Option.ite_none_right_eq_some.1 hwalk
    rw [if_pos hfrom]
    cases component with
    | rootDir => exact ih hwalk
    | curDir => exact ih hwalk
    | parentDir => exact ih hwalk
    | normal next =>
      dsimp only at hwalk ⊢
      cases hlook : look (from' ++ [next]) with
      | none => simp [hlook] at hwalk
      | some kind =>
        rw [hlook] at hwalk
        cases kind with
        | directory => exact ih hwalk
        | link target =>
          have hthen := hfollow _ _ hwalk
          rw [List.append_assoc] at hthen
          exact hthen
        | other => exact ih hwalk

/-- What is no link, in the directory that a path leads to, is where the path and its name lead. -/
theorem resolve_concat {links : Nat} {cwd dir : List α} {path : List (Component α)} {name : α} {kind : Kind α}
    (hresolve : resolve look links cwd path = some dir) (hdir : look dir = some .directory)
    (hname : look (dir ++ [name]) = some kind) (hkind : ∀ target, kind ≠ .link target) :
    resolve look links cwd (path ++ [.normal name]) = some (dir ++ [name]) := by
  induction links generalizing cwd path with
  | zero => exact walk_concat hdir hname hkind (fun _ _ hnone => absurd hnone (by simp)) path hresolve
  | succ links ih => exact walk_concat hdir hname hkind (fun _ _ hfollow => ih hfollow) path hresolve

end Links
