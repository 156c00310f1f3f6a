/-
Where the roots of a restore and their staging directories are: no two of them
have a path in common, so that what is done for one root leaves the others
alone.
-/
import Bellows.Cli.RestoreStaging

namespace Bellows.Cli.Restore

open Text Trees Prog Bellows.Core

/-- Neither is within the other. -/
def Apart (a b : Path) : Prop := ¬ a <+: b ∧ ¬ b <+: a

theorem Apart.symm {a b : Path} (h : Apart a b) : Apart b a := ⟨h.2, h.1⟩

instance : Std.Symm Apart := ⟨fun _ _ => Apart.symm⟩

theorem Apart.ne {a b : Path} (h : Apart a b) : a ≠ b := fun heq => h.1 (heq ▸ List.prefix_rfl)

theorem Apart.not_within {a b path : Path} (h : Apart a b) (hb : b <+: path) : ¬ a <+: path := by
  intro ha
  obtain hab | hba := List.prefix_or_prefix_of_prefix ha hb
  · exact h.1 hab
  · exact h.2 hba

/-! ## The outermost roots -/

section Outermost

/-- One round of the loop that collapses the roots. -/
def keepOuter (outer : List Path) (root : Path) : List Path :=
  if outer.any (·.isPrefixOf root) then outer else outer ++ [root]

theorem outermost_eq (roots : List Path) :
    outermost roots = (roots.insertionSort fun a b => a.length ≤ b.length).foldl keepOuter [] := rfl

theorem any_isPrefixOf_iff {outer : List Path} {root : Path} :
    outer.any (·.isPrefixOf root) = true ↔ ∃ other ∈ outer, other <+: root := by
  simp [List.any_eq_true]

theorem foldl_keepOuter_apart : ∀ (roots : List Path) {outer : List Path}, roots.Pairwise (·.length ≤ ·.length) →
    (∀ other ∈ outer, ∀ root ∈ roots, other.length ≤ root.length) → outer.Pairwise Apart →
    (roots.foldl keepOuter outer).Pairwise Apart
  | [], _, _, _, hapart => hapart
  | root :: roots, outer, hsorted, hshorter, hapart => by
    obtain ⟨hroot, hsorted⟩ := List.pairwise_cons.1 hsorted
    rw [List.foldl_cons, keepOuter]
    split
    · exact foldl_keepOuter_apart roots hsorted
        (fun other ho next hn => hshorter other ho next (List.mem_cons_of_mem _ hn)) hapart
    · next hnone =>
      rw [any_isPrefixOf_iff] at hnone
      refine foldl_keepOuter_apart roots hsorted (fun other ho next hn => ?_) ?_
      · obtain ho | ho := List.mem_append.1 ho
        · exact hshorter other ho next (List.mem_cons_of_mem _ hn)
        · rw [List.mem_singleton.1 ho]
          exact hroot next hn
      · refine List.pairwise_append.2 ⟨hapart, List.pairwise_singleton _ _, fun other ho last hlast => ?_⟩
        obtain rfl := List.mem_singleton.1 hlast
        refine ⟨fun h => hnone ⟨other, ho, h⟩, fun h => hnone ⟨other, ho, ?_⟩⟩
        -- the longer of two of which it is the prefix is the same
        rw [h.eq_of_length (le_antisymm h.length_le (hshorter other ho _ List.mem_cons_self))]

theorem outermost_apart (roots : List Path) : (outermost roots).Pairwise Apart := by
  rw [outermost_eq]
  refine foldl_keepOuter_apart _ ?_ (by simp) List.Pairwise.nil
  exact List.pairwise_insertionSort (r := fun a b : Path => a.length ≤ b.length) roots

theorem mem_foldl_keepOuter : ∀ (roots : List Path) {outer : List Path} {path : Path},
    path ∈ roots.foldl keepOuter outer → path ∈ outer ∨ path ∈ roots
  | [], _, _, h => .inl h
  | root :: roots, outer, path, h => by
    rw [List.foldl_cons] at h
    obtain h | h := mem_foldl_keepOuter roots h
    · unfold keepOuter at h
      split at h
      · exact .inl h
      · obtain h | h := List.mem_append.1 h
        · exact .inl h
        · exact .inr (List.mem_cons.2 (.inl (List.mem_singleton.1 h)))
    · exact .inr (List.mem_cons_of_mem _ h)

theorem mem_of_mem_outermost {roots : List Path} {path : Path} (h : path ∈ outermost roots) : path ∈ roots := by
  rw [outermost_eq] at h
  obtain h | h := mem_foldl_keepOuter _ h
  · cases h
  · exact (List.mem_insertionSort _).1 h

theorem foldl_keepOuter_covers : ∀ (roots : List Path) {outer : List Path} {path : Path},
    (∃ other ∈ outer, other <+: path) ∨ path ∈ roots → ∃ other ∈ roots.foldl keepOuter outer, other <+: path
  | [], _, _, h => h.resolve_right (by simp)
  | root :: roots, outer, path, h => by
    rw [List.foldl_cons]
    refine foldl_keepOuter_covers roots ?_
    have hkeep : ∀ other ∈ outer, other ∈ keepOuter outer root := by
      intro other ho
      unfold keepOuter
      split
      · exact ho
      · exact List.mem_append_left _ ho
    obtain ⟨other, ho, hpre⟩ | h := h
    · exact .inl ⟨other, hkeep other ho, hpre⟩
    obtain rfl | h := List.mem_cons.1 h
    · by_cases hany : outer.any (·.isPrefixOf path) = true
      · obtain ⟨other, ho, hpre⟩ := any_isPrefixOf_iff.1 hany
        exact .inl ⟨other, hkeep other ho, hpre⟩
      · refine .inl ⟨path, ?_, List.prefix_rfl⟩
        rw [keepOuter, if_neg hany]
        exact List.mem_append_right _ List.mem_cons_self
    · exact .inr h

theorem outermost_covers {roots : List Path} {path : Path} (h : path ∈ roots) :
    ∃ outer ∈ outermost roots, outer <+: path := by
  rw [outermost_eq]
  exact foldl_keepOuter_covers _ (.inr ((List.mem_insertionSort _).2 h))

end Outermost

/-! ## The directories -/

/-- What `tempdir_in` is relied on for: a name with the prefix asked for, which
no declared path has in it. -/
structure StagingNames (staging : Path → Text) (roots : List Path) : Prop where
  named : ∀ root ∈ roots, ".bellows-restore-".toList <+: staging root
  fresh : ∀ root ∈ roots, ∀ other ∈ roots, staging root ∉ other

/-- No two of the roots, their staging directories and the state have a path in
common. -/
structure Layout (staging : Path → Text) (roots : List Path) : Prop where
  nonempty : ∀ root ∈ roots, root ≠ []
  apart : roots.Pairwise Apart
  fresh : ∀ root ∈ roots, ∀ other ∈ roots, staging root ∉ other
  state : ∀ root ∈ roots, ¬ STATE <+: root
  staged : ∀ root ∈ roots, staging root ≠ ".bellows".toList

namespace Layout

variable {staging : Path → Text} {roots : List Path} {root other : Path}

theorem apart_of_ne (h : Layout staging roots) (hroot : root ∈ roots) (hother : other ∈ roots) (hne : root ≠ other) :
    Apart root other :=
  h.apart.forall hroot hother hne

/-- A staging directory is apart from every root, its own too. -/
theorem stagingDir_apart (h : Layout staging roots) (hroot : root ∈ roots) (hother : other ∈ roots) :
    Apart (stagingDir staging root) other := by
  constructor
  · intro hpre
    exact h.fresh root hroot other hother (hpre.subset (List.mem_append_right _ List.mem_cons_self))
  · intro hpre
    obtain rfl | hpre := List.prefix_concat_iff.1 hpre
    · exact h.fresh root hroot _ hother (List.mem_append_right _ List.mem_cons_self)
    · by_cases heq : root = other
      · subst heq
        exact ((prefix_dropLast_iff (h.nonempty root hroot)).1 hpre).2 rfl
      · exact (h.apart_of_ne hroot hother heq).2 (hpre.trans (List.dropLast_prefix root))

theorem stagingDirs_apart (h : Layout staging roots) (hroot : root ∈ roots) (hother : other ∈ roots)
    (hne : stagingDir staging root ≠ stagingDir staging other) : Apart (stagingDir staging root) (stagingDir staging other) := by
  have hone : ∀ {root other : Path}, root ∈ roots → other ∈ roots → stagingDir staging root ≠ stagingDir staging other →
      ¬ stagingDir staging root <+: stagingDir staging other := by
    intro root other hroot hother hne hpre
    obtain heq | hpre := List.prefix_concat_iff.1 hpre
    · exact hne heq
    · exact (h.stagingDir_apart hroot hother).1 (hpre.trans (List.dropLast_prefix other))
  exact ⟨hone hroot hother hne, hone hother hroot (Ne.symm hne)⟩

theorem prefix_of_prefix_state {path : Path} (h : path <+: STATE) : path = [] ∨ path = STATE := by
  have hconcat : path <+: [] ++ [".bellows".toList] := h
  obtain heq | hnil := List.prefix_concat_iff.1 hconcat
  · exact .inr heq
  · exact .inl (List.prefix_nil.1 hnil)

theorem state_apart (h : Layout staging roots) (hroot : root ∈ roots) : Apart STATE root := by
  refine ⟨h.state root hroot, fun hpre => ?_⟩
  obtain hnil | rfl := prefix_of_prefix_state hpre
  · exact h.nonempty root hroot hnil
  · exact h.state STATE hroot List.prefix_rfl

theorem state_stagingDir (h : Layout staging roots) (hroot : root ∈ roots) : Apart STATE (stagingDir staging root) := by
  have hno : ¬ STATE <+: stagingDir staging root := by
    intro hpre
    obtain heq | hpre := List.prefix_concat_iff.1 hpre
    · have hlast := congrArg List.getLast? heq
      rw [List.getLast?_concat] at hlast
      exact h.staged root hroot (Option.some.inj hlast).symm
    · exact h.state root hroot (hpre.trans (List.dropLast_prefix root))
  refine ⟨hno, fun hpre => ?_⟩
  obtain hnil | heq := prefix_of_prefix_state hpre
  · simp [stagingDir] at hnil
  · exact hno (heq ▸ List.prefix_rfl)

theorem nodup (h : Layout staging roots) : roots.Nodup := h.apart.imp Apart.ne

end Layout

/-- The roots of a record that passes the check, under such names. -/
theorem layout_of_valid {staging : Path → Text} {r : DeclaredActionRecord}
    (hvalid : validateOutputRoots r.inputs r.outputPaths = .ok ()) (hnames : StagingNames staging (outputRoots r)) :
    Layout staging (outputRoots r) := by
  have hdeclared : ∀ root ∈ outputRoots r, root ≠ [] ∧ ¬ STATE <+: root := by
    intro root hroot
    obtain ⟨path, hpath, rfl⟩ := List.mem_map.1 (mem_of_mem_outermost hroot)
    exact ⟨List.splitOnP_ne_nil _ _, (validateOutputRoots_eq_ok hvalid path hpath).2⟩
  refine
    { nonempty := fun root hroot => (hdeclared root hroot).1, apart := outermost_apart _, fresh := hnames.fresh,
      state := fun root hroot => (hdeclared root hroot).2, staged := fun root hroot heq => ?_ }
  have hnamed := hnames.named root hroot
  rw [heq] at hnamed
  exact absurd hnamed.length_le (by decide)

/-! ## The first loop -/

section Stage

variable {faults : RestoreOp → Bool} {staging : Path → Text} {files : List (Artifact × List UInt8)} {roots : List Path}

/-- Outside the staging directories so far, only directories above a root are
new. -/
def OnlyAbove (staging : Path → Text) (roots staged : List Path) (t u : Workspace) : Prop :=
  ∀ path, (∀ root ∈ staged, ¬ stagingDir staging root <+: path) → nodeAt u path = nodeAt t path ∨
    nodeAt t path = none ∧ nodeAt u path = some .directory ∧ ∃ root ∈ roots, path <+: root ∧ path ≠ root

theorem OnlyAbove.grows {staged : List Path} {root : Path} {t u v : Workspace} (h : OnlyAbove staging roots staged t u)
    (hroot : root ∈ roots) (hgrows : Grows root u v) : OnlyAbove staging roots staged t v := by
  intro path hpath
  obtain heq | ⟨hnone, hdir, hpre⟩ := hgrows path
  · rw [heq]
    exact h path hpath
  · obtain heq' | ⟨-, hdir', -⟩ := h path hpath
    · exact .inr ⟨heq' ▸ hnone, hdir, root, hroot, hpre⟩
    · rw [hnone] at hdir'
      cases hdir'

theorem OnlyAbove.under {staged : List Path} {root : Path} {t u v : Workspace} (h : OnlyAbove staging roots staged t u)
    (hunder : Under (stagingDir staging root) u v) : OnlyAbove staging roots (staged ++ [root]) t v := by
  intro path hpath
  obtain ⟨hstaged, hroot⟩ := List.forall_mem_append.1 hpath
  rw [hunder path (hroot root List.mem_cons_self)]
  exact h path hstaged

/-- Between two rounds: what is staged is whole, and the rest is as it was
before the first. -/
structure Staged (staging : Path → Text) (files : List (Artifact × List UInt8)) (roots : List Path) (t : Workspace)
    (s : Restoring) : Prop where
  above : OnlyAbove staging roots s.staged t s.tree
  within : ∀ root ∈ s.staged, root ∈ roots
  holds : ∀ root ∈ s.staged, Holds staging root (expected files root) s.tree
  parent : ∀ root ∈ s.staged, nodeAt s.tree root.dropLast = some .directory
  free : ∀ root ∈ s.staged, nodeAt t (stagingDir staging root) = none
  distinct : s.staged.Pairwise fun a b => stagingDir staging a ≠ stagingDir staging b
  swaps : s.saved = [] ∧ s.installed = []

/-- A round that fails leaves its staging directory, or none. -/
theorem stageRoot_keeps {t : Workspace} {s : Restoring} {root : Path} (hlayout : Layout staging roots)
    (hvalid : ∀ file ∈ files, validateRelativePath file.1.fileName = .ok file.1.path)
    (hnodup : (files.map (·.1.path)).Nodup) (hs : Staged staging files roots t s) (hroot : root ∈ roots) :
    Ensures (stageRoot faults staging files root) s fun r v => match r with
      | .ok _ => Staged staging files roots t v ∧ v.staged = s.staged ++ [root]
      | .error _ => OnlyAbove staging roots v.staged t v.tree ∧ ∀ other ∈ v.staged, other ∈ roots := by
  refine (stageRoot_spec s hvalid hnodup).mono fun r v hv => ?_
  obtain ⟨u, hgrows, hswaps, ⟨htree, hstaged, hr⟩ | ⟨hfree, hparent, hunder, hstaged, hholds⟩⟩ := hv
  · cases r with
    | ok => exact absurd rfl hr
    | error e =>
      refine ⟨?_, fun other ho => hs.within other (hstaged ▸ ho)⟩
      rw [hstaged, htree]
      exact hs.above.grows hroot hgrows
  have habove := hs.above.grows hroot hgrows
  have hwithin : ∀ other ∈ v.staged, other ∈ roots := by
    rw [hstaged]
    exact List.forall_mem_append.2 ⟨hs.within, by simpa using hroot⟩
  -- no directory was missing in a staging directory, or above its root
  have hstay : ∀ other ∈ s.staged, ∀ path, nodeAt u (stagingDir staging other ++ path) =
      nodeAt s.tree (stagingDir staging other ++ path) := by
    intro other ho path
    obtain heq | ⟨-, -, hpre, -⟩ := hgrows (stagingDir staging other ++ path)
    · exact heq
    · exact absurd ((List.prefix_append _ _).trans hpre) (hlayout.stagingDir_apart (hs.within other ho) hroot).1
  have hdistinct : ∀ other ∈ s.staged, stagingDir staging other ≠ stagingDir staging root := by
    intro other ho heq
    have hdir := hs.holds other ho []
    rw [← hstay other ho, List.append_nil, heq, hfree] at hdir
    cases hdir
  have hapart : ∀ other ∈ s.staged, Apart (stagingDir staging other) (stagingDir staging root) := fun other ho =>
    hlayout.stagingDirs_apart (hs.within other ho) hroot (hdistinct other ho)
  cases r with
  | error e =>
    refine ⟨?_, hwithin⟩
    rw [hstaged]
    exact habove.under hunder
  | ok =>
    refine ⟨⟨by rw [hstaged]; exact habove.under hunder, hwithin, ?_, ?_, ?_, ?_, ?_⟩, hstaged⟩
    · rw [hstaged]
      refine List.forall_mem_append.2 ⟨fun other ho path => ?_, by simpa using hholds rfl⟩
      rw [hunder _ ((hapart other ho).symm.not_within (List.prefix_append _ _)), hstay other ho]
      exact hs.holds other ho path
    · have hkept : ∀ other ∈ roots, nodeAt u other.dropLast = some .directory →
          nodeAt v.tree other.dropLast = some .directory := by
        intro other ho hdir
        rw [hunder _ fun hpre => ?_]
        · exact hdir
        · exact (hlayout.stagingDir_apart hroot ho).1 (hpre.trans (List.dropLast_prefix other))
      rw [hstaged]
      refine List.forall_mem_append.2 ⟨fun other ho => hkept other (hs.within other ho) ?_, ?_⟩
      case refine_2 => simpa using hkept root hroot hparent
      obtain heq | ⟨hnone, -⟩ := hgrows other.dropLast
      · rw [heq]
        exact hs.parent other ho
      · rw [hs.parent other ho] at hnone
        cases hnone
    · rw [hstaged]
      refine List.forall_mem_append.2 ⟨hs.free, ?_⟩
      obtain heq | ⟨-, hdir, -⟩ := habove (stagingDir staging root) fun other ho => (hapart other ho).1
      · simpa using heq.symm.trans hfree
      · rw [hfree] at hdir
        cases hdir
    · rw [hstaged]
      refine List.pairwise_append.2 ⟨hs.distinct, List.pairwise_singleton _ _, fun other ho last hlast => ?_⟩
      rw [List.mem_singleton.1 hlast]
      exact hdistinct other ho
    · exact ⟨hswaps.1.trans hs.swaps.1, hswaps.2.trans hs.swaps.2⟩

theorem stageRoots_spec {t : Workspace} (hlayout : Layout staging roots)
    (hvalid : ∀ file ∈ files, validateRelativePath file.1.fileName = .ok file.1.path)
    (hnodup : (files.map (·.1.path)).Nodup) : ∀ {rest : List Path} {s : Restoring}, s.staged ++ rest = roots →
      Staged staging files roots t s →
      Ensures (rest.forM (stageRoot faults staging files)) s fun r v => match r with
        | .ok _ => Staged staging files roots t v ∧ v.staged = roots
        | .error _ => OnlyAbove staging roots v.staged t v.tree ∧ ∀ other ∈ v.staged, other ∈ roots
  | [], s, hrest, hs => ⟨hs, by rwa [List.append_nil] at hrest⟩
  | root :: rest, s, hrest, hs => by
    have hroot : root ∈ roots := hrest ▸ List.mem_append_right _ List.mem_cons_self
    refine (stageRoot_keeps hlayout hvalid hnodup hs hroot).bind (fun _ _ h => h) fun _ v hv => ?_
    refine stageRoots_spec hlayout hvalid hnodup ?_ hv.1
    rw [hv.2, List.append_assoc, List.singleton_append, hrest]

end Stage

end Bellows.Cli.Restore
