/-
What a change to a workspace can reach (`compare_workspace_snapshots`): the
packages whose surface changed, and those that depend on them, however far
down, in the snapshot after the change.

Dependencies are followed backwards over a map that is made of them once
(`mem_downstream`). They may go round in cycles and leave the snapshot; only
packages of the snapshot depend on anything, so that the loop takes each of
them off its list at most once.
-/
import Mathlib.Data.Finset.Sort
import Bellows.Cli.FileSystem
import Bellows.Lib.Assoc
import Bellows.Lib.Worklist

namespace Bellows.Cli

open Relation Worklist

structure PackageSnapshot where
  name : Text
  sourceDigest : Text
  syntacticSurfaceDigest : Text
  dependencies : List Text
  deriving DecidableEq, Repr

/-- A snapshot's packages, by their ids. -/
abbrev Packages := Assoc Text PackageSnapshot

def surfaceCaveat : String :=
  "Advisory syntactic public surface only; generic and #[inline] bodies, default trait methods, exported macros, " ++
    "generated code, and compiler metadata may affect downstream crates without changing this digest. " ++
    "Never use this result to authorize a cache hit."

structure ImpactReport where
  before : Text
  after : Text
  caveat : Text
  sourceChanged : List Text
  syntacticSurfaceChanged : List Text
  privateImplementationCandidates : List Text
  affectedDownstream : List Text

/-- The ids of the packages whose source changed, and of those whose surface did. -/
structure Changed where
  source : Finset Text
  surface : Finset Text

/-- One package of the snapshot after. -/
def compareOne (before : Packages) (changed : Changed) (entry : (_ : Text) × PackageSnapshot) : Changed :=
  match before.lookup entry.1 with
  | some previous =>
    { source := if previous.sourceDigest ≠ entry.2.sourceDigest then insert entry.1 changed.source else changed.source
      surface := if previous.syntacticSurfaceDigest ≠ entry.2.syntacticSurfaceDigest then
        insert entry.1 changed.surface else changed.surface }
  | none => ⟨insert entry.1 changed.source, insert entry.1 changed.surface⟩

def changedPackages (before after : Packages) : Changed := after.entries.foldl (compareOne before) ⟨∅, ∅⟩

/-- `id` put under what it depends on. -/
def addReverse (reverse : Assoc Text (List Text)) (edge : Text × Text) : Assoc Text (List Text) :=
  reverse.insert edge.1 ((reverse.lookup edge.1).getD [] ++ [edge.2])

/-- The ids of the packages that depend on each id. -/
def reverseDependencies (after : Packages) : Assoc Text (List Text) :=
  after.entries.foldl (fun reverse entry =>
    entry.2.dependencies.foldl (fun reverse dependency => addReverse reverse (dependency, entry.1)) reverse) ∅

def downstream (after : Packages) (id : Text) : List Text := ((reverseDependencies after).lookup id).getD []

/-- The ids that the loop leaves, which starts with the greatest of those changed. -/
def affectedPackages (steps : Nat) (before after : Packages) : Option (Finset Text) :=
  let surface := (changedPackages before after).surface
  (close (downstream after) steps ⟨surface, surface.sort.reverse⟩).map State.reached

def packageNames (after : Packages) (ids : Finset Text) : List Text :=
  ids.sort.filterMap fun id => (after.lookup id).map PackageSnapshot.name

/-- The report on two snapshots of these names. -/
def impactReport (before after : Text × Packages) (affected : Finset Text) : ImpactReport :=
  let changed := changedPackages before.2 after.2
  { before := before.1
    after := after.1
    caveat := surfaceCaveat.toList
    sourceChanged := packageNames after.2 changed.source
    syntacticSurfaceChanged := packageNames after.2 changed.surface
    privateImplementationCandidates := packageNames after.2 (changed.source \ changed.surface)
    affectedDownstream := packageNames after.2 affected }

/-- `none` if so many steps do not end the loop. -/
def compareWorkspaceSnapshots (steps : Nat) (before after : Text × Packages) : Option ImpactReport :=
  (affectedPackages steps before.2 after.2).map (impactReport before after)

/-! ## What changed, and what depends on it -/

/-- A package of the snapshot after that is new, or whose surface changed. -/
def SurfaceChanged (before after : Packages) (id : Text) : Prop :=
  ∃ package, after.lookup id = some package ∧
    ∀ previous, before.lookup id = some previous → previous.syntacticSurfaceDigest ≠ package.syntacticSurfaceDigest

def DependsOn (after : Packages) (id dependency : Text) : Prop :=
  ∃ package, after.lookup id = some package ∧ dependency ∈ package.dependencies

theorem mem_compareOne_surface (before : Packages) (changed : Changed) (entry : (_ : Text) × PackageSnapshot) (id : Text) :
    id ∈ (compareOne before changed entry).surface ↔ id ∈ changed.surface ∨ id = entry.1 ∧
      ∀ previous, before.lookup id = some previous → previous.syntacticSurfaceDigest ≠ entry.2.syntacticSurfaceDigest := by
  unfold compareOne
  split
  · next previous hprevious =>
    by_cases hsurface : previous.syntacticSurfaceDigest ≠ entry.2.syntacticSurfaceDigest
    · simp only [hsurface, if_true, ne_eq, not_false_eq_true, Finset.mem_insert]
      grind
    · simp only [hsurface, if_false]
      grind
  · next hnone =>
    simp only [Finset.mem_insert]
    grind

theorem mem_changed_surface (before after : Packages) (id : Text) :
    id ∈ (changedPackages before after).surface ↔ SurfaceChanged before after id := by
  have hfold : ∀ (entries : List ((_ : Text) × PackageSnapshot)) (changed : Changed),
      id ∈ (entries.foldl (compareOne before) changed).surface ↔ id ∈ changed.surface ∨ ∃ entry ∈ entries, id = entry.1 ∧
        ∀ previous, before.lookup id = some previous →
          previous.syntacticSurfaceDigest ≠ entry.2.syntacticSurfaceDigest := by
    intro entries
    induction entries with
    | nil => simp
    | cons entry entries ih =>
      intro changed
      rw [List.foldl_cons, ih, mem_compareOne_surface]
      simp [or_assoc]
  rw [changedPackages, hfold]
  constructor
  · rintro (h | ⟨⟨key, package⟩, hentry, rfl, h⟩)
    · simp at h
    · exact ⟨package, Assoc.mem_entries_iff.1 hentry, h⟩
  · intro ⟨package, hlookup, h⟩
    exact .inr ⟨⟨id, package⟩, Assoc.mem_entries_iff.2 hlookup, rfl, h⟩

theorem mem_addReverse (reverse : Assoc Text (List Text)) (edge : Text × Text) (id dependency : Text) :
    id ∈ ((addReverse reverse edge).lookup dependency).getD [] ↔
      id ∈ (reverse.lookup dependency).getD [] ∨ edge = (dependency, id) := by
  obtain ⟨target, source⟩ := edge
  by_cases h : dependency = target
  · subst h
    simp [addReverse, AList.lookup_insert, eq_comm]
  · simp [addReverse, AList.lookup_insert_ne h, Ne.symm h]

/-- The packages under an id are those that depend on it. -/
theorem mem_downstream (after : Packages) (id dependency : Text) :
    id ∈ downstream after dependency ↔ DependsOn after id dependency := by
  have hinner : ∀ (source : Text) (dependencies : List Text) (reverse : Assoc Text (List Text)),
      id ∈ ((dependencies.foldl (fun reverse d => addReverse reverse (d, source)) reverse).lookup dependency).getD [] ↔
        id ∈ (reverse.lookup dependency).getD [] ∨ dependency ∈ dependencies ∧ source = id := by
    intro source dependencies
    induction dependencies with
    | nil => simp
    | cons d dependencies ih =>
      intro reverse
      rw [List.foldl_cons, ih, mem_addReverse]
      simp only [Prod.mk.injEq, List.mem_cons, eq_comm (a := d)]
      grind
  have houter : ∀ (entries : List ((_ : Text) × PackageSnapshot)) (reverse : Assoc Text (List Text)),
      id ∈ ((entries.foldl (fun reverse entry =>
        entry.2.dependencies.foldl (fun reverse d => addReverse reverse (d, entry.1)) reverse) reverse).lookup
          dependency).getD [] ↔
        id ∈ (reverse.lookup dependency).getD [] ∨ ∃ entry ∈ entries, dependency ∈ entry.2.dependencies ∧ entry.1 = id := by
    intro entries
    induction entries with
    | nil => simp
    | cons entry entries ih =>
      intro reverse
      rw [List.foldl_cons, ih, hinner]
      simp [or_assoc]
  rw [downstream, reverseDependencies, houter]
  constructor
  · rintro (h | ⟨⟨key, package⟩, hentry, hmem, rfl⟩)
    · simp at h
    · exact ⟨package, Assoc.mem_entries_iff.1 hentry, hmem⟩
  · intro ⟨package, hlookup, hmem⟩
    exact .inr ⟨⟨id, package⟩, Assoc.mem_entries_iff.2 hlookup, hmem, rfl⟩

/-! ## What is affected -/

theorem mem_keys_of_lookup {after : Packages} {id : Text} {package : PackageSnapshot} (h : after.lookup id = some package) :
    id ∈ after.keys.toFinset := by
  rw [List.mem_toFinset, ← AList.mem_keys, ← AList.lookup_isSome, h]
  rfl

/-- The loop takes at most one step for each package and one to end, and leaves exactly the packages from which
one that is new, or whose surface changed, is reached along the dependencies. Those are the ones reported. -/
theorem compareWorkspaceSnapshots_affected (before after : Text × Packages) {steps : Nat}
    (hsteps : after.2.keys.length < steps) :
    ∃ affected report, affectedPackages steps before.2 after.2 = some affected ∧
      compareWorkspaceSnapshots steps before after = some report ∧
      report.affectedDownstream = packageNames after.2 affected ∧
      ∀ id, id ∈ affected ↔
        ∃ changed, SurfaceChanged before.2 after.2 changed ∧ ReflTransGen (DependsOn after.2) id changed := by
  have hnodes : ∀ dependency, ∀ id ∈ downstream after.2 dependency, id ∈ after.2.keys.toFinset := by
    intro dependency id hid
    obtain ⟨package, hlookup, -⟩ := (mem_downstream after.2 id dependency).1 hid
    exact mem_keys_of_lookup hlookup
  have hsurface : (changedPackages before.2 after.2).surface ⊆ after.2.keys.toFinset := by
    intro id hid
    obtain ⟨package, hlookup, -⟩ := (mem_changed_surface before.2 after.2 id).1 hid
    exact mem_keys_of_lookup hlookup
  have hstart : Inv (downstream after.2) (changedPackages before.2 after.2).surface
      ⟨_, (changedPackages before.2 after.2).surface.sort.reverse⟩ := .start _ (by simp)
  have hbound : (after.2.keys.toFinset \ (changedPackages before.2 after.2).surface).card +
      (changedPackages before.2 after.2).surface.sort.reverse.length < steps := by
    have hcard := Finset.card_sdiff_add_card_eq_card hsurface
    have hkeys := List.toFinset_card_le after.2.keys
    rw [List.length_reverse, Finset.length_sort]
    omega
  obtain ⟨t, hclose, hmem⟩ := close_eq_some hnodes hstart hbound
  have haffected : affectedPackages steps before.2 after.2 = some t.reached := by
    simp [affectedPackages, hclose]
  have hreport : compareWorkspaceSnapshots steps before after = some (impactReport before after t.reached) := by
    simp [compareWorkspaceSnapshots, haffected]
  refine ⟨t.reached, _, haffected, hreport, rfl, fun id => (hmem id).trans ?_⟩
  -- a dependency is followed backwards
  have hpath : ∀ changed, ReflTransGen (fun a b => b ∈ downstream after.2 a) changed id ↔
      ReflTransGen (DependsOn after.2) id changed := by
    intro changed
    rw [← reflTransGen_swap]
    simp only [mem_downstream]
  simp only [mem_changed_surface, hpath]

def exampleBefore : Packages where
  entries := [⟨"core".toList, ⟨"core".toList, "s1".toList, "p1".toList, []⟩⟩]
  nodupKeys := by simp [List.NodupKeys, List.keys]

/-- A package whose tests depend on the package that depends on it, which is new. -/
def exampleAfter : Packages where
  entries := [⟨"cli".toList, ⟨"cli".toList, "s2".toList, "p2".toList, ["core".toList, "serde".toList]⟩⟩,
    ⟨"core".toList, ⟨"core".toList, "s1".toList, "p1".toList, ["cli".toList]⟩⟩]
  nodupKeys := by simp [List.NodupKeys, List.keys]

theorem compareWorkspaceSnapshots_cycle :
    ∃ affected report, affectedPackages 3 exampleBefore exampleAfter = some affected ∧
      compareWorkspaceSnapshots 3 ("a".toList, exampleBefore) ("b".toList, exampleAfter) = some report ∧
      report.affectedDownstream = packageNames exampleAfter affected ∧
      ∀ id, id ∈ affected ↔ ∃ changed, SurfaceChanged exampleBefore exampleAfter changed ∧
        ReflTransGen (DependsOn exampleAfter) id changed :=
  compareWorkspaceSnapshots_affected ("a".toList, exampleBefore) ("b".toList, exampleAfter) (by decide)

end Bellows.Cli
