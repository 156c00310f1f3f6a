/-
Where a restored file goes (`safe_destination`), whatever files, directories and
symbolic links there are: a path that is accepted leads from its root through
directories to the place of the same names below it, unless the last of them is
a link that the process cannot see.

The tree is that of the whole file system, which no other process changes.
Which directories the process may search, where it may create one, and which
paths no call gets through is left open.
-/
import Bellows.Cli.Restore
import Bellows.Lib.Links

namespace Bellows.Cli.Destination

open Text Trees Links Restore

/-- So many links are followed on one path. -/
def MAX_LINKS : Nat := 40

def componentOf (name : Text) : Component Text :=
  if name = [] ∨ name = ['.'] then .curDir else if name = ['.', '.'] then .parentDir else .normal name

/-- What a link's target says, from the top if it starts with a slash. -/
def targetComponents (target : Text) : List (Component Text) :=
  match target.splitOnP (· == '/') with
  | [] :: rest => .rootDir :: rest.map componentOf
  | parts => parts.map componentOf

def kindOf : Node → Kind Text
  | .directory => .directory
  | .symlink target => .link (targetComponents target)
  | .file _ _ | .special => .other

inductive DestinationError where
  /-- `unsafe restore path`, with all of it. -/
  | unsafePath (relative : List (Component Text))
  /-- `restore destination is a symlink` -/
  | symlink (path : List (Component Text))
  /-- `unsafe restore parent` -/
  | unsafeParent (path : List (Component Text))
  /-- `symlink_metadata` or `create_dir` failed. -/
  | failed (path : List (Component Text))
  deriving DecidableEq, Repr

/-- What the calls of a process depend on besides the tree. -/
structure Process where
  cwd : Path
  /-- The directories that it may look names up in. -/
  searches : Path → Bool
  /-- Where it may create a directory. -/
  permits : Path → Bool
  /-- The paths that every call fails on: too long, or not to be read. -/
  refuses : List (Component Text) → Bool

/-- One that sees all there is. -/
def Process.unhindered (p : Process) : Process := { p with searches := fun _ => true, refuses := fun _ => false }

section Calls

variable (p : Process) (t : Workspace)

/-- From a directory that may not be searched no path goes on. -/
def look (place : Path) : Option (Kind Text) :=
  (nodeAt t place).map fun node => if node = .directory ∧ p.searches place = false then .other else kindOf node

variable (path : List (Component Text))

def placeOf : Option Path := resolve (look p t) MAX_LINKS p.cwd path

/-- Where a path leads, be it seen or not. -/
def leadsTo : Option Path := placeOf p.unhindered t path

/-- `symlink_metadata` -/
def symlinkMetadata : Option Node :=
  if p.refuses path then none else (locate (look p t) MAX_LINKS p.cwd path).bind (nodeAt t)

/-- `exists`, which follows a link. -/
def pathExists : Bool := !p.refuses path && ((placeOf p t path).bind (nodeAt t)).isSome

def createDir : Option Workspace :=
  if p.refuses path then none
  else
    (locate (look p t) MAX_LINKS p.cwd path).bind fun place =>
      if nodeAt t place = none ∧ p.permits place then some (put t place .directory) else none

end Calls

section Loop

variable (p : Process) (relative : List (Component Text))

/-- The loop over the components, with the tree that it leaves. -/
def descend (t : Workspace) (current : List (Component Text)) :
    List (Component Text) → Except DestinationError (List (Component Text)) × Workspace
  | [] => (.ok current, t)
  | .normal segment :: rest =>
    let current := current ++ [.normal segment]
    if rest = [] then
      -- An error is taken for no link.
      if isSymlink (symlinkMetadata p t current) then (.error (.symlink current), t) else descend t current rest
    else if pathExists p t current then
      match symlinkMetadata p t current with
      | none => (.error (.failed current), t)
      | some node => if node = .directory then descend t current rest else (.error (.unsafeParent current), t)
    else
      match createDir p t current with
      | none => (.error (.failed current), t)
      | some t => descend t current rest
  | _ :: _ => (.error (.unsafePath relative), t)

/-- `safe_destination` -/
def safeDestination (t : Workspace) (root : List (Component Text)) :
    Except DestinationError (List (Component Text)) × Workspace := descend p relative t root relative

end Loop

/-! ## What the calls say -/

variable {p : Process} {t t' : Workspace} {path : List (Component Text)} {name : Text}

theorem look_directory {place : Path} :
    look p t place = some .directory ↔ nodeAt t place = some .directory ∧ p.searches place = true := by
  unfold look
  cases nodeAt t place with
  | none => simp
  | some node => cases node <;> simp [kindOf]

/-- What is no link may be passed through, as far as it is looked at. -/
theorem look_other {place : Path} {node : Node} (h : nodeAt t place = some node) (hlink : ∀ target, node ≠ .symlink target) :
    ∃ kind, look p t place = some kind ∧ ∀ target, kind ≠ .link target := by
  refine ⟨_, by rw [look, h]; rfl, fun target => ?_⟩
  cases node with
  | symlink target => exact absurd rfl (hlink target)
  | directory => dsimp only; split <;> simp [kindOf]
  | file | special => simp [kindOf]

theorem symlinkMetadata_concat {node : Node} : symlinkMetadata p t (path ++ [.normal name]) = some node ↔
    p.refuses (path ++ [.normal name]) = false ∧ ∃ dir, placeOf p t path = some dir ∧ nodeAt t dir = some .directory ∧
      p.searches dir = true ∧ nodeAt t (dir ++ [name]) = some node := by
  simp only [symlinkMetadata, Option.bind_eq_some_iff, Option.ite_none_left_eq_some, locate_concat_eq_some, look_directory,
    placeOf, Bool.not_eq_true]
  grind

theorem createDir_concat : createDir p t (path ++ [.normal name]) = some t' ↔
    p.refuses (path ++ [.normal name]) = false ∧ ∃ dir, placeOf p t path = some dir ∧ nodeAt t dir = some .directory ∧
      p.searches dir = true ∧ nodeAt t (dir ++ [name]) = none ∧ p.permits (dir ++ [name]) = true ∧
      put t (dir ++ [name]) .directory = t' := by
  simp only [createDir, Option.bind_eq_some_iff, Option.ite_none_left_eq_some, locate_concat_eq_some, look_directory,
    placeOf, Option.ite_none_right_eq_some, Option.some.injEq, Bool.not_eq_true]
  grind

/-- A directory that is seen is entered. -/
theorem placeOf_concat (h : symlinkMetadata p t (path ++ [.normal name]) = some .directory) :
    ∃ dir, placeOf p t path = some dir ∧ nodeAt t (dir ++ [name]) = some .directory ∧
      placeOf p t (path ++ [.normal name]) = some (dir ++ [name]) := by
  obtain ⟨-, dir, hplace, hdir, hsearch, hnode⟩ := symlinkMetadata_concat.1 h
  obtain ⟨kind, hlook, hkind⟩ := look_other (p := p) hnode (by simp)
  exact ⟨dir, hplace, hnode, resolve_concat hplace (look_directory.2 ⟨hdir, hsearch⟩) hlook hkind⟩

theorem pathExists_concat (h : symlinkMetadata p t (path ++ [.normal name]) = some .directory) :
    pathExists p t (path ++ [.normal name]) = true := by
  obtain ⟨hrefuses, -⟩ := symlinkMetadata_concat.1 h
  obtain ⟨dir, -, hnode, hplace⟩ := placeOf_concat h
  simp [pathExists, hrefuses, hplace, hnode]

/-- What is there stays, what is not may be made a directory. -/
def Grows (t' t : Workspace) : Prop := ∀ place node, nodeAt t place = some node → nodeAt t' place = some node

theorem Grows.refl : Grows t t := fun _ _ h => h

theorem Grows.trans {t₁ : Workspace} (h : Grows t' t₁) (h' : Grows t₁ t) : Grows t' t :=
  fun place node hnode => h place node (h' place node hnode)

theorem Grows.extends (h : Grows t' t) : Extends (look p t') (look p t) := by
  intro place kind hlook
  obtain ⟨node, hnode, hkind⟩ := Option.map_eq_some_iff.1 hlook
  exact .inl (Option.map_eq_some_iff.2 ⟨node, h place node hnode, hkind⟩)

theorem grows_put {place : Path} (h : nodeAt t place = none) : Grows (put t place .directory) t := by
  intro other node hnode
  rw [nodeAt_put, if_neg]
  · exact hnode
  · intro heq
    rw [← heq, h] at hnode
    cases hnode

/-- What the process sees is there. -/
theorem leadsTo_of_placeOf {place : Path} (h : placeOf p t path = some place) : leadsTo p t path = some place := by
  refine resolve_extends (fun other kind hlook => ?_) MAX_LINKS h
  obtain ⟨node, hnode, hkind⟩ := Option.map_eq_some_iff.1 hlook
  have hall : look p.unhindered t other = some (kindOf node) := by simp [look, hnode, Process.unhindered]
  rw [hall, ← hkind]
  split
  · next hdir =>
    obtain ⟨rfl, -⟩ := hdir
    exact .inr ⟨rfl, rfl⟩
  · exact .inl rfl

theorem symlinkMetadata_grows (h : Grows t' t) {node : Node} (hnode : symlinkMetadata p t (path ++ [.normal name]) = some node) :
    symlinkMetadata p t' (path ++ [.normal name]) = some node := by
  obtain ⟨hrefuses, dir, hplace, hdir, hsearch, hname⟩ := symlinkMetadata_concat.1 hnode
  exact symlinkMetadata_concat.2 ⟨hrefuses, dir, resolve_extends h.extends MAX_LINKS hplace, h _ _ hdir, hsearch, h _ _ hname⟩

/-- Directories above everything that is there. -/
def Rooted (t : Workspace) : Prop := ∀ place name node, nodeAt t (place ++ [name]) = some node → nodeAt t place = some .directory

theorem Rooted.above (h : Rooted t) {base segments : Path} {node : Node} (hnode : nodeAt t (base ++ segments) = some node)
    {k : Nat} (hk : k < segments.length) : nodeAt t (base ++ segments.take k) = some .directory := by
  induction segments using List.reverseRecOn generalizing node k with
  | nil => simp at hk
  | append_singleton segments last ih =>
    rw [← List.append_assoc] at hnode
    have hdir := h _ _ _ hnode
    rw [List.length_append, List.length_singleton] at hk
    rcases Nat.lt_or_eq_of_le (Nat.le_of_lt_succ hk) with hlt | rfl
    · rw [List.take_append_of_le_length hlt.le]
      exact ih hdir hlt
    · simpa using hdir

/-! ## The loop -/

/-- From a directory on: the segments but the last lead through directories, and what was made are some of these. -/
structure Led (t t' : Workspace) (base segments : Path) : Prop where
  parents : ∀ k, 0 < k → k < segments.length → nodeAt t' (base ++ segments.take k) = some .directory
  grows : Grows t' t
  created : ∀ place, nodeAt t' place = nodeAt t place ∨ nodeAt t place = none ∧ nodeAt t' place = some .directory ∧
    ∃ k, 0 < k ∧ k < segments.length ∧ place = base ++ segments.take k

/-- And the last one is no link. -/
structure Settled (t t' : Workspace) (base segments : Path) : Prop extends Led t t' base segments where
  last : ∀ target, nodeAt t' (base ++ segments) ≠ some (.symlink target)

theorem led_single {base : Path} {segment : Text} : Led t t base [segment] := by
  refine ⟨fun k hpos hlt => ?_, .refl, fun place => .inl rfl⟩
  rw [List.length_singleton] at hlt
  omega

/-- One directory on the way, there before or made. -/
theorem Led.cons {t₁ : Workspace} {base : Path} {segments : Path} (hne : segments ≠ [])
    (hstep : t₁ = t ∨ nodeAt t (base ++ [name]) = none ∧ t₁ = put t (base ++ [name]) .directory)
    (hdir : nodeAt t₁ (base ++ [name]) = some .directory) (h : Led t₁ t' (base ++ [name]) segments) :
    Led t t' base (name :: segments) := by
  have hgrows : Grows t₁ t := by
    rcases hstep with rfl | ⟨hnone, rfl⟩
    · exact .refl
    · exact grows_put hnone
  refine ⟨fun k hpos hlt => ?_, h.grows.trans hgrows, fun place => ?_⟩
  · obtain ⟨k, rfl⟩ := Nat.exists_eq_succ_of_ne_zero (Nat.pos_iff_ne_zero.1 hpos)
    rw [List.take_succ_cons, List.append_cons]
    cases k with
    | zero => simpa using h.grows _ _ hdir
    | succ k => exact h.parents (k + 1) (Nat.succ_pos k) (by simpa using hlt)
  · have hlength : 0 < segments.length := List.length_pos_iff.2 hne
    have hafter : ∀ k, 0 < k ∧ k < segments.length ∧ place = base ++ [name] ++ segments.take k →
        ∃ k, 0 < k ∧ k < (name :: segments).length ∧ place = base ++ (name :: segments).take k := by
      intro k hk
      obtain ⟨hpos, hlt, heq⟩ := hk
      exact ⟨k + 1, Nat.succ_pos k, by simpa using hlt, by simpa using heq⟩
    rcases h.created place with hsame | ⟨hnone, hmade, k, hk⟩
    · rcases hstep with rfl | ⟨hfree, rfl⟩
      · exact .inl hsame
      · by_cases hplace : base ++ [name] = place
        · refine .inr ⟨hplace ▸ hfree, ?_, 1, Nat.one_pos, by simpa using hlength, by simp [← hplace]⟩
          rw [hsame, nodeAt_put, if_pos hplace]
        · exact .inl (by rw [hsame, nodeAt_put, if_neg hplace])
    · refine .inr ⟨?_, hmade, hafter k hk⟩
      rw [← Option.not_isSome_iff_eq_none]
      intro hsome
      obtain ⟨node, hnode⟩ := Option.isSome_iff_exists.1 hsome
      rw [hgrows place node hnode] at hnone
      cases hnone

variable {relative : List (Component Text)}

/-- The last segment. -/
theorem descend_last {segment : Text} {current dest : List (Component Text)}
    (h : descend p relative t current [.normal segment] = (.ok dest, t')) :
    dest = current ++ [.normal segment] ∧ t' = t ∧ isSymlink (symlinkMetadata p t' dest) = false := by
  simp only [descend, if_true] at h
  split at h
  · cases h
  · next hlink =>
    obtain ⟨rfl, rfl⟩ : current ++ [.normal segment] = dest ∧ t = t' := by
      simpa using h
    exact ⟨rfl, rfl, Bool.eq_false_iff.2 hlink⟩

/-- One of the others is a directory, or is made one. -/
theorem descend_parent {segment : Text} {current dest rest : List (Component Text)} (hrest : rest ≠ [])
    (h : descend p relative t current (.normal segment :: rest) = (.ok dest, t')) :
    ∃ base t₁, placeOf p t current = some base ∧ nodeAt t base = some .directory ∧
      (t₁ = t ∨ nodeAt t (base ++ [segment]) = none ∧ t₁ = put t (base ++ [segment]) .directory) ∧
      symlinkMetadata p t₁ (current ++ [.normal segment]) = some .directory ∧
      descend p relative t₁ (current ++ [.normal segment]) rest = (.ok dest, t') := by
  simp only [descend, hrest, if_false] at h
  split at h
  · split at h
    · cases h
    · next node hnode =>
      split at h
      · next hdirectory =>
        subst hdirectory
        obtain ⟨-, base, hplace, hdir, -⟩ := symlinkMetadata_concat.1 hnode
        exact ⟨base, t, hplace, hdir, .inl rfl, hnode, h⟩
      · cases h
  · split at h
    · cases h
    · next t₁ hcreated =>
      obtain ⟨hrefuses, base, hplace, hdir, hsearch, hnone, -, rfl⟩ := createDir_concat.1 hcreated
      have hgrows := grows_put hnone
      refine ⟨base, _, hplace, hdir, .inr ⟨hnone, rfl⟩, symlinkMetadata_concat.2 ⟨hrefuses, base, ?_⟩, h⟩
      exact ⟨resolve_extends hgrows.extends MAX_LINKS hplace, hgrows _ _ hdir, hsearch, by rw [nodeAt_put, if_pos rfl]⟩

/-- The process sees directories on the way. -/
def Seen (p : Process) (t : Workspace) (current rest : List (Component Text)) : Prop :=
  ∀ k, 0 < k → k < rest.length → symlinkMetadata p t (current ++ rest.take k) = some .directory

/-- What an accepted path says of the tree it leaves. -/
structure Accepted (p : Process) (t t' : Workspace) (current : List (Component Text)) (segments base : Path) : Prop
    extends Led t t' base segments where
  unlinked : isSymlink (symlinkMetadata p t' (current ++ segments.map .normal)) = false
  seen : Seen p t' current (segments.map .normal)
  place : leadsTo p t' (current ++ segments.dropLast.map .normal) = some (base ++ segments.dropLast)

/-- From a place on, by the segments left. -/
theorem descend_ok {rest : List (Component Text)} (hne : rest ≠ []) {current dest : List (Component Text)} {base : Path}
    (hplace : leadsTo p t current = some base) (h : descend p relative t current rest = (.ok dest, t')) :
    ∃ segments, rest = segments.map .normal ∧ dest = current ++ rest ∧ Accepted p t t' current segments base := by
  induction rest generalizing t current base with
  | nil => exact absurd rfl hne
  | cons component rest ih =>
    cases component with
    | rootDir => simp [descend] at h
    | curDir => simp [descend] at h
    | parentDir => simp [descend] at h
    | normal segment =>
      by_cases hrest : rest = []
      · subst hrest
        obtain ⟨rfl, rfl, hunlinked⟩ := descend_last h
        refine ⟨[segment], rfl, rfl, led_single, hunlinked, fun k hpos hlt => ?_, by simpa using hplace⟩
        rw [List.length_map, List.length_singleton] at hlt
        omega
      · obtain ⟨base', t₁, hplace', -, hstep, hseen, h⟩ := descend_parent hrest h
        have hgrows : Grows t₁ t := by
          rcases hstep with rfl | ⟨hnone, rfl⟩
          · exact .refl
          · exact grows_put hnone
        obtain rfl : base' = base := Option.some.inj ((leadsTo_of_placeOf hplace').symm.trans hplace)
        obtain ⟨dir, hdir, hmade, hnext⟩ := placeOf_concat hseen
        obtain rfl : dir = base' :=
          Option.some.inj (hdir.symm.trans (resolve_extends hgrows.extends MAX_LINKS hplace'))
        obtain ⟨segments, rfl, hdest, haccepted⟩ := ih hrest (leadsTo_of_placeOf hnext) h
        have hsegments : segments ≠ [] := by
          intro hnil
          exact hrest (by rw [hnil]; rfl)
        refine ⟨segment :: segments, rfl, by simpa using hdest,
          haccepted.toLed.cons hsegments hstep hmade, ?_, fun k hpos hlt => ?_, ?_⟩
        · simpa using haccepted.unlinked
        · obtain ⟨k, rfl⟩ := Nat.exists_eq_succ_of_ne_zero (Nat.pos_iff_ne_zero.1 hpos)
          rw [List.map_cons, List.take_succ_cons, List.append_cons]
          cases k with
          | zero => simpa using symlinkMetadata_grows haccepted.grows hseen
          | succ k => exact haccepted.seen (k + 1) (Nat.succ_pos k) (by simpa using hlt)
        · rw [List.dropLast_cons_of_ne_nil hsegments, List.map_cons, List.append_cons, List.append_cons dir]
          exact haccepted.place

/-- Directories that are seen, and no link that is, are accepted as they are. -/
theorem descend_seen {segments : Path} (hne : segments ≠ []) {current : List (Component Text)}
    (hseen : Seen p t current (segments.map .normal))
    (hlast : isSymlink (symlinkMetadata p t (current ++ segments.map .normal)) = false) :
    descend p relative t current (segments.map .normal) = (.ok (current ++ segments.map .normal), t) := by
  induction segments generalizing current with
  | nil => exact absurd rfl hne
  | cons segment segments ih =>
    cases segments with
    | nil => simpa [descend] using hlast
    | cons next segments =>
      have hdir : symlinkMetadata p t (current ++ [.normal segment]) = some .directory := by
        simpa using hseen 1 Nat.one_pos (by simp)
      have hrest : Seen p t (current ++ [.normal segment]) ((next :: segments).map .normal) := by
        intro k hpos hlt
        have hk := hseen (k + 1) (Nat.succ_pos k) (by simpa using hlt)
        rwa [List.map_cons, List.take_succ_cons, List.append_cons] at hk
      have hgo := ih (List.cons_ne_nil _ _) hrest (by simpa using hlast)
      rw [List.map_cons, descend]
      simp only [List.map_cons] at hgo ⊢
      simp only [List.cons_ne_nil, if_false, pathExists_concat hdir, if_true, hdir, hgo]
      simp

/-! ## What is accepted -/

/-- The destination is the root and the names given, no other components. If the root leads to a directory, the
destination's directory is the place of its names below that one, through directories only; nothing there is a link,
and what was made are those of the directories that were missing. If it leads to none, there is one name, and
nothing was made. -/
def Confined (p : Process) (t t' : Workspace) (root relative dest : List (Component Text)) : Prop :=
  ∃ segments : Path, relative = segments.map .normal ∧ dest = root ++ relative ∧
    ((∃ base, leadsTo p t root = some base ∧ nodeAt t base = some .directory ∧
        leadsTo p t' dest.dropLast = some (base ++ segments.dropLast) ∧ Settled t t' base segments) ∨
      (∀ base, leadsTo p t root = some base → nodeAt t base ≠ some .directory) ∧ t' = t ∧ segments.length = 1)

/-- The names lead, through directories that the process sees, to a link that it does not. -/
def HidesLink (p : Process) (t : Workspace) (root relative : List (Component Text)) : Prop :=
  ∃ (segments base : Path) (target : Text), relative = segments.map .normal ∧ leadsTo p t root = some base ∧
    nodeAt t (base ++ segments) = some (.symlink target) ∧ Seen p t root relative ∧
      symlinkMetadata p t (root ++ relative) = none

/-- Where nothing was made, nothing changed. -/
theorem Led.unchanged {base segments : Path} (h : Led t t' base segments) (ht : Rooted t) {node : Node}
    (hnode : nodeAt t (base ++ segments) = some node) : nodeAt t' = nodeAt t := by
  funext place
  rcases h.created place with hsame | ⟨hnone, -, k, -, hlt, rfl⟩
  · exact hsame
  · rw [ht.above hnode hlt] at hnone
    cases hnone

theorem symlinkMetadata_congr (h : nodeAt t' = nodeAt t) : symlinkMetadata p t' = symlinkMetadata p t := by
  funext path
  simp only [symlinkMetadata, funext fun place => show look p t' place = look p t place by simp only [look, h], h]

/-- A link that was accepted was there, and not seen. -/
theorem Accepted.settled {root : List (Component Text)} {segments base : Path} (h : Accepted p t t' root segments base)
    (hne : segments ≠ []) (ht : Rooted t) (hroot : leadsTo p t root = some base)
    (hhides : ¬ HidesLink p t root (segments.map .normal)) : Settled t t' base segments := by
  refine ⟨h.toLed, fun target hlink => hhides ?_⟩
  have hbefore : nodeAt t (base ++ segments) = some (.symlink target) := by
    rcases h.created (base ++ segments) with hsame | ⟨-, hmade, -⟩
    · exact hsame ▸ hlink
    · rw [hlink] at hmade
      cases hmade
  have hsame := h.unchanged ht hbefore
  have hmetadata := symlinkMetadata_congr (p := p) hsame
  refine ⟨segments, base, target, rfl, hroot, hbefore, ?_, ?_⟩
  · intro k hpos hlt
    rw [← hmetadata]
    exact h.seen k hpos hlt
  · -- Had the call succeeded, it would have told of the link.
    rw [← hmetadata, ← Option.not_isSome_iff_eq_none]
    intro hsome
    obtain ⟨node, hnode⟩ := Option.isSome_iff_exists.1 hsome
    obtain ⟨init, last, rfl⟩ : ∃ init last, segments = init ++ [last] :=
      ⟨_, _, (List.dropLast_append_getLast hne).symm⟩
    have hunlinked := h.unlinked
    have hplace := h.place
    rw [List.map_append, List.map_singleton, ← List.append_assoc] at hnode hunlinked
    rw [List.dropLast_concat] at hplace
    obtain ⟨-, dir, hdir, -, -, hthere⟩ := symlinkMetadata_concat.1 hnode
    obtain rfl : dir = base ++ init := Option.some.inj ((leadsTo_of_placeOf hdir).symm.trans hplace)
    rw [List.append_assoc, hlink] at hthere
    rw [hnode, ← Option.some.inj hthere] at hunlinked
    cases hunlinked

/-- What is accepted stays below the root, if no link is hidden. -/
theorem confined_of_not_hides {root dest : List (Component Text)} (hne : relative ≠ []) (ht : Rooted t)
    (hhides : ¬ HidesLink p t root relative) (h : safeDestination p relative t root = (.ok dest, t')) :
    Confined p t t' root relative dest := by
  by_cases hroot : ∃ base, leadsTo p t root = some base ∧ nodeAt t base = some .directory
  · obtain ⟨base, hplace, hdir⟩ := hroot
    obtain ⟨segments, rfl, rfl, haccepted⟩ := descend_ok hne hplace h
    have hsegments : segments ≠ [] := by
      rintro rfl
      exact hne rfl
    refine ⟨segments, rfl, rfl, .inl ⟨base, hplace, hdir, ?_, haccepted.settled hsegments ht hplace hhides⟩⟩
    rw [List.dropLast_append_of_ne_nil hne, ← List.map_dropLast]
    exact haccepted.place
  · obtain ⟨component, rest, rfl⟩ := List.exists_cons_of_ne_nil hne
    cases component with
    | rootDir => simp [safeDestination, descend] at h
    | curDir => simp [safeDestination, descend] at h
    | parentDir => simp [safeDestination, descend] at h
    | normal segment =>
      by_cases hrest : rest = []
      · subst hrest
        obtain ⟨rfl, rfl, -⟩ := descend_last h
        exact ⟨[segment], rfl, rfl, .inr ⟨fun base hplace hdir => hroot ⟨base, hplace, hdir⟩, rfl, rfl⟩⟩
      · obtain ⟨base, t₁, hplace, hdir, -⟩ := descend_parent hrest h
        exact absurd ⟨base, leadsTo_of_placeOf hplace, hdir⟩ hroot

/-- A hidden link is accepted. -/
theorem HidesLink.accepted {root : List (Component Text)} (h : HidesLink p t root relative) (hne : relative ≠ [])
    (ht : Rooted t) : safeDestination p relative t root = (.ok (root ++ relative), t) ∧
      ¬ Confined p t t root relative (root ++ relative) := by
  obtain ⟨segments, base, target, rfl, hroot, hlink, hseen, hnone⟩ := h
  have hsegments : segments ≠ [] := by
    rintro rfl
    exact hne rfl
  refine ⟨descend_seen hsegments hseen (by rw [hnone]; rfl), ?_⟩
  rintro ⟨others, hothers, -, ⟨base', hroot', -, -, hsettled⟩ | ⟨hnowhere, -⟩⟩
  · obtain rfl : base = base' := Option.some.inj (hroot.symm.trans hroot')
    obtain rfl : segments = others := List.map_injective_iff.2 (fun _ _ => Component.normal.inj) hothers
    exact hsettled.last target hlink
  · have hdir := ht.above hlink (k := 0) (List.length_pos_iff.2 hsegments)
    rw [List.take_zero, List.append_nil] at hdir
    exact hnowhere base hroot hdir

/-- A process that may search every directory sees every link. -/
theorem not_hidesLink {root : List (Component Text)} (hne : relative ≠ []) (ht : Rooted t)
    (hsearch : ∀ place, p.searches place = true) (hrefuse : ∀ path, p.refuses path = false) :
    ¬ HidesLink p t root relative := by
  rintro ⟨segments, base, target, rfl, hroot, hlink, hseen, hnone⟩
  have hall : p.unhindered = p := by
    rw [Process.unhindered, ← funext hsearch, ← funext hrefuse]
  obtain ⟨init, last, rfl⟩ : ∃ init last, segments = init ++ [last] :=
    ⟨_, _, (List.dropLast_append_getLast (by rintro rfl; exact hne rfl)).symm⟩
  have hplaces : ∀ k, k ≤ init.length →
      placeOf p t (root ++ (init.take k).map .normal) = some (base ++ init.take k) := by
    intro k hk
    induction k with
    | zero =>
      rw [leadsTo, hall] at hroot
      simpa using hroot
    | succ k ih =>
      have hdir := hseen (k + 1) (Nat.succ_pos k) (by simp; omega)
      have htake : ((init ++ [last]).map Component.normal).take (k + 1) =
          (init.take k).map .normal ++ [.normal init[k]] := by
        rw [List.map_append, List.take_append_of_le_length (by simpa using hk), ← List.map_take, List.take_succ_eq_append_getElem,
          List.map_append, List.map_singleton]
      rw [htake, ← List.append_assoc] at hdir
      obtain ⟨dir, hplace, -, hnext⟩ := placeOf_concat hdir
      obtain rfl : dir = base ++ init.take k := Option.some.inj (hplace.symm.trans (ih (by omega)))
      rw [List.take_succ_eq_append_getElem, List.map_append, List.map_singleton, ← List.append_assoc, hnext, List.append_assoc]
  have hplace := hplaces init.length le_rfl
  rw [List.take_length] at hplace
  rw [← List.append_assoc] at hlink
  have hmetadata := symlinkMetadata_concat.2 ⟨hrefuse _, base ++ init, hplace, ht _ _ _ hlink, hsearch _, hlink⟩
  rw [List.append_assoc, ← List.map_singleton, ← List.map_append, hnone] at hmetadata
  cases hmetadata

/-- **What is accepted stays below the root just when no link is hidden**, and
none is from a process that may search every directory. -/
theorem safeDestination_confined_iff {root : List (Component Text)} (hne : relative ≠ []) (ht : Rooted t) :
    ((∀ dest t', safeDestination p relative t root = (.ok dest, t') → Confined p t t' root relative dest) ↔
      ¬ HidesLink p t root relative) ∧
    ((∀ place, p.searches place = true) → (∀ path, p.refuses path = false) → ¬ HidesLink p t root relative) := by
  refine ⟨⟨fun hall hhides => ?_, fun hhides dest t' h => confined_of_not_hides hne ht hhides h⟩, not_hidesLink hne ht⟩
  obtain ⟨haccepted, hnot⟩ := hhides.accepted hne ht
  exact hnot (hall _ _ haccepted)

/-- A workspace behind a link, with a link in it that leads out. -/
def linkedTree : Workspace :=
  [([], .directory), (["etc".toList], .directory), (["src".toList], .symlink "/home/w".toList), (["home".toList], .directory),
    (["home".toList, "w".toList], .directory), (["home".toList, "w".toList, "out".toList], .symlink "/etc".toList)]

def linkedRoot : List (Component Text) := [.rootDir, .normal "src".toList]

theorem linkedTree_rooted : Rooted linkedTree := by
  intro place name node h
  have hmem : (place ++ [name], node) ∈ linkedTree := by
    obtain ⟨entry, hfind, rfl⟩ := Option.map_eq_some_iff.1 h
    have hpath : entry.1 = place ++ [name] := by simpa using List.find?_some hfind
    exact hpath ▸ List.mem_of_find?_eq_some hfind
  have hparent : ∀ entry ∈ linkedTree, entry.1 ≠ [] → nodeAt linkedTree entry.1.dropLast = some .directory := by decide
  simpa using hparent _ hmem (by simp)

/-- A process that may do all. -/
def anyone : Process := ⟨[], fun _ => true, fun _ => true, fun _ => false⟩

/-- The directory is made behind the root's link; the other one is refused. -/
theorem safeDestination_linked :
    Confined anyone linkedTree (put linkedTree ["home".toList, "w".toList, "lib".toList] .directory) linkedRoot
        [.normal "lib".toList, .normal "x".toList]
        [.rootDir, .normal "src".toList, .normal "lib".toList, .normal "x".toList] ∧
      (safeDestination anyone [.normal "out".toList, .normal "x".toList] linkedTree linkedRoot).1 =
        .error (.unsafeParent [.rootDir, .normal "src".toList, .normal "out".toList]) := by
  have hmade : safeDestination anyone [.normal "lib".toList, .normal "x".toList] linkedTree linkedRoot = _ := rfl
  have hne : ([.normal "lib".toList, .normal "x".toList] : List (Component Text)) ≠ [] := List.cons_ne_nil _ _
  have hconfined : _ ∧ (_ → _ → ¬ HidesLink anyone linkedTree linkedRoot [.normal "lib".toList, .normal "x".toList]) :=
    safeDestination_confined_iff hne linkedTree_rooted
  obtain ⟨hiff, hsees⟩ := hconfined
  exact ⟨hiff.2 (hsees (fun _ => rfl) fun _ => rfl) _ _ hmade, rfl⟩

/-- One that may not look into the workspace. -/
def outsider : Process := { anyone with searches := fun place => place ≠ ["home".toList, "w".toList] }

/-- The link in it is taken for nothing. -/
theorem safeDestination_hidden : ¬ ∀ (p : Process) (t t' : Workspace) (root relative dest : List (Component Text)),
    relative ≠ [] → Rooted t → safeDestination p relative t root = (.ok dest, t') → Confined p t t' root relative dest := by
  intro hall
  have hhides : HidesLink outsider linkedTree linkedRoot [.normal "out".toList] := by
    refine ⟨["out".toList], ["home".toList, "w".toList], "/etc".toList, rfl, rfl, rfl, fun k hpos hlt => ?_, rfl⟩
    rw [List.length_singleton] at hlt
    omega
  obtain ⟨haccepted, hnot⟩ := hhides.accepted (by simp) linkedTree_rooted
  exact hnot (hall _ _ _ _ _ _ (by simp) linkedTree_rooted haccepted)

end Bellows.Cli.Destination
