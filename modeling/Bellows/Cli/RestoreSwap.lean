/-
The second half of a restore: the roots are swapped in by two renames each, and
swapped back after a failure. A root, what replaces it, what was there and what
failed are kept at four places, and every rename moves a tree from one of them
to another.
-/
import Bellows.Cli.RestoreLayout

namespace Bellows.Cli.Restore

open Text Trees Prog Bellows.Core

variable {faults : RestoreOp → Bool} {staging : Path → Text} {files : List (Artifact × List UInt8)}

/-! ## A root and its staging directory -/

/-- Where the trees of a root are kept. -/
inductive Place where
  | there
  | new
  | old
  | failed
  deriving DecidableEq

def Place.path (staging : Path → Text) (root : Path) : Place → Path
  | .there => root
  | .new => freshPath staging root
  | .old => oldPath staging root
  | .failed => failedPath staging root

/-- What is at a root's places. -/
structure Slot (staging : Path → Text) (root : Path) (holds : Place → Path → Option Node) (t : Workspace) : Prop where
  parent : nodeAt t root.dropLast = some .directory
  dir : nodeAt t (stagingDir staging root) = some .directory
  kept : ∀ place path, nodeAt t (place.path staging root ++ path) = holds place path

/-- Only what is at or under the root or its staging directory differs. -/
def Outside (staging : Path → Text) (root : Path) (t t' : Workspace) : Prop :=
  ∀ path, ¬ root <+: path → ¬ stagingDir staging root <+: path → nodeAt t' path = nodeAt t path

theorem Outside.refl (root : Path) (t : Workspace) : Outside staging root t t := fun _ _ _ => rfl

theorem Outside.trans {root : Path} {t u v : Workspace} (h : Outside staging root t u) (h' : Outside staging root u v) :
    Outside staging root t v := fun path hroot hdir => (h' path hroot hdir).trans (h path hroot hdir)

section Moves

variable {root : Path} {holds : Place → Path → Option Node} {t t' : Workspace} {src dst : Place}

theorem place_apart (hroot : Apart (stagingDir staging root) root) (h : src ≠ dst) :
    Apart (src.path staging root) (dst.path staging root) := by
  have hinside : ∀ name, Apart root (stagingDir staging root ++ [name]) := fun name =>
    ⟨fun hp => hroot.symm.not_within (List.prefix_append _ [name]) hp,
      fun hp => hroot.1 ((List.prefix_append _ _).trans hp)⟩
  have hnames : ∀ name name' : Text, name ≠ name' →
      Apart (stagingDir staging root ++ [name]) (stagingDir staging root ++ [name']) := by
    intro name name' hne
    simp [Apart, hne, Ne.symm hne]
  cases src <;> cases dst <;>
    first
    | exact absurd rfl h
    | exact hinside _
    | exact (hinside _).symm
    | exact hnames _ _ (by decide)

theorem place_within (place : Place) {path : Path} (h : place.path staging root <+: path) :
    root <+: path ∨ stagingDir staging root <+: path := by
  cases place with
  | there => exact .inl h
  | new | old | failed => exact .inr ((List.prefix_append _ _).trans h)

theorem not_place_prefix_dropLast (hne : root ≠ []) (hroot : Apart (stagingDir staging root) root) (place : Place) :
    ¬ place.path staging root <+: root.dropLast := by
  intro hpre
  obtain h | h := place_within place hpre
  · exact ((prefix_dropLast_iff hne).1 h).2 rfl
  · exact hroot.1 (h.trans (List.dropLast_prefix root))

theorem not_place_prefix_stagingDir (hroot : Apart (stagingDir staging root) root) (place : Place) :
    ¬ place.path staging root <+: stagingDir staging root := by
  intro hpre
  cases place with
  | there => exact hroot.2 hpre
  | new | old | failed =>
    have hlength := hpre.length_le
    simp only [Place.path, freshPath, oldPath, failedPath, List.length_append, List.length_singleton] at hlength
    omega

/-- A rename from one place to another. -/
theorem Slot.move (src dst : Place) (h : Slot staging root holds t) (hne : root ≠ [])
    (hroot : Apart (stagingDir staging root) root) (hplaces : src ≠ dst) :
    Slot staging root (Function.update (Function.update holds dst (holds src)) src fun _ => none)
        (Trees.move t (src.path staging root) (dst.path staging root)) ∧
      Outside staging root t (Trees.move t (src.path staging root) (dst.path staging root)) := by
  have hother : ∀ {path : Path}, ¬ dst.path staging root <+: path → ¬ src.path staging root <+: path →
      nodeAt (Trees.move t (src.path staging root) (dst.path staging root)) path = nodeAt t path := nodeAt_move_of_not_prefix
  refine ⟨⟨?_, ?_, fun place path => ?_⟩, fun path hpath hdir => ?_⟩
  · rw [hother (not_place_prefix_dropLast hne hroot dst) (not_place_prefix_dropLast hne hroot src)]
    exact h.parent
  · rw [hother (not_place_prefix_stagingDir hroot dst) (not_place_prefix_stagingDir hroot src)]
    exact h.dir
  · by_cases hsrc : place = src
    · subst hsrc
      rw [Function.update_self]
      exact nodeAt_move_source ((place_apart hroot (Ne.symm hplaces)).not_within (List.prefix_append _ _))
        (List.prefix_append _ _)
    rw [Function.update_of_ne hsrc]
    by_cases hdst : place = dst
    · subst hdst
      rw [Function.update_self, nodeAt_move_under]
      exact h.kept src path
    · rw [Function.update_of_ne hdst, hother ((place_apart hroot (Ne.symm hdst)).not_within (List.prefix_append _ _))
        ((place_apart hroot (Ne.symm hsrc)).not_within (List.prefix_append _ _))]
      exact h.kept place path
  · have hno : ∀ place : Place, ¬ place.path staging root <+: path := fun place hpre =>
      (place_within place hpre).elim hpath hdir
    exact hother (hno dst) (hno src)

/-- A path that is a root's, or the directory above it, is not `other`'s. -/
theorem not_within_other {other path : Path} (hroot : Apart other root) (hdir : Apart other (stagingDir staging root))
    (h : root <+: path ∨ stagingDir staging root <+: path ∨ path = root.dropLast) : ¬ other <+: path := by
  obtain h | h | rfl := h
  · exact hroot.not_within h
  · exact hdir.not_within h
  · exact fun hpre => hroot.1 (hpre.trans (List.dropLast_prefix root))

end Moves

/-- Two roots of one restore, and their staging directories. -/
structure Distinct (staging : Path → Text) (roots : List Path) : Prop extends Layout staging roots where
  dirs : ∀ root ∈ roots, ∀ other ∈ roots, root ≠ other → stagingDir staging root ≠ stagingDir staging other

variable {roots : List Path}

theorem Distinct.outside (h : Distinct staging roots) {root other : Path} {t t' : Workspace} (hroot : root ∈ roots)
    (hother : other ∈ roots) (hne : root ≠ other) (hout : Outside staging other t t') {path : Path}
    (hpath : root <+: path ∨ stagingDir staging root <+: path ∨ path = root.dropLast) : nodeAt t' path = nodeAt t path :=
  hout path
    (not_within_other (h.apart_of_ne hother hroot (Ne.symm hne)) (h.stagingDir_apart hroot hother).symm hpath)
    (not_within_other (h.stagingDir_apart hother hroot)
      (h.stagingDirs_apart hother hroot (h.dirs other hother root hroot (Ne.symm hne))) hpath)

/-- What happens at another root leaves a root's trees alone. -/
theorem Slot.frame {root other : Path} {holds : Place → Path → Option Node} {t t' : Workspace}
    (hslot : Slot staging root holds t) (h : Distinct staging roots) (hroot : root ∈ roots) (hother : other ∈ roots)
    (hne : root ≠ other) (hout : Outside staging other t t') : Slot staging root holds t' := by
  refine ⟨?_, ?_, fun place path => ?_⟩
  · rw [h.outside hroot hother hne hout (.inr (.inr rfl))]
    exact hslot.parent
  · rw [h.outside hroot hother hne hout (.inr (.inl List.prefix_rfl))]
    exact hslot.dir
  · have hwithin := place_within place (List.prefix_append (place.path staging root) path)
    rw [h.outside hroot hother hne hout (hwithin.imp_right .inl)]
    exact hslot.kept place path

/-! ## One root swapped in -/

/-- A root's places after the renames of its swap. -/
def swapped (orig new : Path → Option Node) (saved installed : Bool) : Place → Path → Option Node
  | .there => if installed then new else if saved then fun _ => none else orig
  | .new => if installed then fun _ => none else new
  | .old => if saved then orig else fun _ => none
  | .failed => fun _ => none

/-- The old output is there, and the lookup finds it. -/
def finds (faults : RestoreOp → Bool) (t : Workspace) (root : Path) : Bool :=
  !faults (.lookOld root) && (nodeAt t root).isSome

/-- The swap of a root goes through. -/
def installs (faults : RestoreOp → Bool) (files : List (Artifact × List UInt8)) (t : Workspace) (root : Path) : Bool :=
  (if finds faults t root then !faults (.saveOld root) else (expected files root []).any fun node => givesWay t node root) &&
    !faults (.install root)

/-- There is always something to swap in. -/
theorem expected_root (files : List (Artifact × List UInt8)) (root : Path) : ∃ node, expected files root [] = some node := by
  unfold expected content
  split
  · exact ⟨_, rfl⟩
  · next hnone =>
    refine ⟨.directory, if_pos (.inl ⟨rfl, ?_⟩)⟩
    rw [List.append_nil] at hnone
    rw [isFile, Bool.not_eq_true', List.any_eq_false]
    intro file hfile
    simpa using List.find?_eq_none.1 hnone file hfile

theorem rename_eq_some {src dst : Path} {t t' : Workspace} (h : rename src dst t = some t') : t' = move t src dst := by
  unfold rename at h
  split at h
  · cases h
  · split at h
    · exact (Option.some.inj h).symm
    · cases h

theorem rename_of_givesWay {src : Path} (dst : Path) {t : Workspace} {node : Node} (hsrc : nodeAt t src = some node)
    (hparent : nodeAt t dst.dropLast = some .directory) :
    rename src dst t = if givesWay t node dst then some (move t src dst) else none := by
  unfold rename
  simp only [hsrc, hparent, true_and]

theorem givesWay_of_none {t : Workspace} {node : Node} {dst : Path} (h : nodeAt t dst = none) : givesWay t node dst = true := by
  rw [givesWay, h]

section Install

variable {root : Path} {orig : Path → Option Node} {saved : Bool}

/-- The second rename, and what it depends on. -/
theorem install_spec {s : Restoring} (hne : root ≠ []) (hroot : Apart (stagingDir staging root) root)
    (hslot : Slot staging root (swapped orig (expected files root) saved false) s.tree) :
    Ensures (do
      perform faults (.install root) (rename (freshPath staging root) root)
      modify fun s => { s with installed := s.installed ++ [root] }) s fun r t =>
      let fits := (expected files root []).any (givesWay s.tree · root) && !faults (.install root)
      fits = true ∧ r = .ok () ∧ Outside staging root s.tree t.tree ∧ t.staged = s.staged ∧ t.saved = s.saved ∧
          t.installed = s.installed ++ [root] ∧ Slot staging root (swapped orig (expected files root) saved true) t.tree ∨
        fits = false ∧ r ≠ .ok () ∧ t = s := by
  obtain ⟨node, hnode⟩ := expected_root files root
  have hfresh : nodeAt s.tree (freshPath staging root) = some node := by
    have hkept := hslot.kept .new []
    rw [List.append_nil] at hkept
    exact hkept.trans hnode
  have hrename := rename_of_givesWay root hfresh hslot.parent
  obtain ⟨hmoved, hout⟩ := hslot.move .new .there hne hroot (by decide)
  have hplaces : Function.update (Function.update (swapped orig (expected files root) saved false) .there
      (swapped orig (expected files root) saved false .new)) .new (fun _ => none) =
        swapped orig (expected files root) saved true := by
    funext place
    cases place <;> rfl
  rw [hplaces] at hmoved
  rw [hnode, Option.any_some]
  by_cases hfits : givesWay s.tree node root = true ∧ faults (.install root) = false
  · rw [if_pos hfits.1] at hrename
    rw [ensures_bind_of_ok (outcome_perform_of_some hfits.2 hrename)]
    exact .inl ⟨by simp [hfits], rfl, hout, rfl, rfl, rfl, hmoved⟩
  · have hfails : faults (.install root) = true ∨ rename (freshPath staging root) root s.tree = none := by
      rw [hrename]
      grind
    rw [ensures_bind_of_error (outcome_perform_of_none hfails)]
    exact .inr ⟨by grind, by simp, rfl⟩

/-- A swap, and which of its renames were made. -/
theorem installRoot_spec {s : Restoring} (hne : root ≠ []) (hroot : Apart (stagingDir staging root) root)
    (hslot : Slot staging root (swapped orig (expected files root) false false) s.tree) :
    Ensures (installRoot faults staging root) s fun r t => Outside staging root s.tree t.tree ∧ t.staged = s.staged ∧
      ∃ saved installed : Bool, t.saved = (if saved then s.saved ++ [root] else s.saved) ∧
        t.installed = (if installed then s.installed ++ [root] else s.installed) ∧
        Slot staging root (swapped orig (expected files root) saved installed) t.tree ∧
        (saved = true → finds faults s.tree root = true) ∧ (installed = true → saved = finds faults s.tree root) ∧
        installed = installs faults files s.tree root ∧ (installed = true ↔ r = .ok ()) := by
  unfold installRoot
  rw [ensures_get_bind]
  cases hfinds : finds faults s.tree root with
  | false =>
    have hskip : ¬ (faults (.lookOld root) = false ∧ (nodeAt s.tree root).isSome = true) := by
      unfold finds at hfinds
      grind
    have hinstalls : installs faults files s.tree root =
        ((expected files root []).any (givesWay s.tree · root) && !faults (.install root)) := by
      rw [installs, hfinds]
      rfl
    rw [if_neg hskip]
    refine (install_spec hne hroot hslot).mono fun r t ht => ?_
    obtain ⟨hfits, rfl, hout, hstaged, hsaved, hinstalled, hmoved⟩ | ⟨hfits, hr, rfl⟩ := ht
    · exact ⟨hout, hstaged, false, true, hsaved, hinstalled, hmoved, by simp, by simp, (hinstalls.trans hfits).symm, by simp⟩
    · exact ⟨Outside.refl _ _, rfl, false, false, rfl, rfl, hslot, by simp, by simp, (hinstalls.trans hfits).symm,
        by simpa using hr⟩
  | true =>
    have hlook : faults (.lookOld root) = false ∧ (nodeAt s.tree root).isSome = true := by
      unfold finds at hfinds
      grind
    obtain ⟨node, hnode⟩ := Option.isSome_iff_exists.1 hlook.2
    have hfree : nodeAt s.tree (oldPath staging root) = none := by
      have hkept := hslot.kept .old []
      rwa [List.append_nil] at hkept
    have hrename := rename_of_givesWay (oldPath staging root) hnode (by simpa [oldPath] using hslot.dir)
    rw [if_pos (givesWay_of_none hfree)] at hrename
    rw [if_pos hlook]
    cases hfault : faults (.saveOld root) with
    | true =>
      rw [ensures_bind_of_error (outcome_perform_of_none (.inl hfault))]
      exact ⟨Outside.refl _ _, rfl, false, false, rfl, rfl, hslot, by simp, by simp, by simp [installs, hfinds, hfault],
        by simp⟩
    | false =>
      have hinstalls : installs faults files s.tree root = !faults (.install root) := by simp [installs, hfinds, hfault]
      obtain ⟨hmoved, hout⟩ := hslot.move .there .old hne hroot (by decide)
      have hplaces : Function.update (Function.update (swapped orig (expected files root) false false) .old
          (swapped orig (expected files root) false false .there)) .there (fun _ => none) =
            swapped orig (expected files root) true false := by
        funext place
        cases place <;> rfl
      rw [hplaces] at hmoved
      obtain ⟨new, hnew⟩ := expected_root files root
      have hgives : givesWay (move s.tree root (oldPath staging root)) new root = true := by
        have hgone := hmoved.kept .there []
        rw [List.append_nil] at hgone
        exact givesWay_of_none hgone
      rw [ensures_bind_of_ok (outcome_perform_of_some hfault hrename), ensures_modify_bind]
      refine (install_spec
        (s := { s with tree := move s.tree root (oldPath staging root), saved := s.saved ++ [root] })
        hne hroot hmoved).mono fun r t ht => ?_
      simp only [hnew, Option.any_some, hgives, Bool.true_and] at ht
      obtain ⟨hfits, rfl, hout', hstaged, hsaved, hinstalled, hmoved'⟩ | ⟨hfits, hr, rfl⟩ := ht
      · exact ⟨hout.trans hout', hstaged, true, true, hsaved, hinstalled, hmoved', by simp, by simp,
          (hinstalls.trans hfits).symm, by simp⟩
      · exact ⟨hout, rfl, true, false, rfl, rfl, hmoved, by simp, by simp, (hinstalls.trans hfits).symm, by simpa using hr⟩

end Install

/-! ## The second loop -/

theorem givesWay_congr {t t' : Workspace} {root : Path} (h : ∀ path, nodeAt t' (root ++ path) = nodeAt t (root ++ path))
    (node : Node) : givesWay t' node root = givesWay t node root := by
  have hroot : nodeAt t' root = nodeAt t root := by simpa using h []
  have hempty : emptyAt t' root = emptyAt t root := by
    rw [Bool.eq_iff_iff, emptyAt_iff, emptyAt_iff]
    simp only [h]
  rw [givesWay, givesWay, hroot, hempty]

theorem finds_congr {t t' : Workspace} {root : Path} (h : ∀ path, nodeAt t' (root ++ path) = nodeAt t (root ++ path)) :
    finds faults t' root = finds faults t root := by
  have hroot : nodeAt t' root = nodeAt t root := by simpa using h []
  rw [finds, finds, hroot]

theorem installs_congr {t t' : Workspace} {root : Path} (h : ∀ path, nodeAt t' (root ++ path) = nodeAt t (root ++ path)) :
    installs faults files t' root = installs faults files t root := by
  simp only [installs, finds_congr h, givesWay_congr h]

/-- What was at and under a path. -/
def treeAt (t : Workspace) (root : Path) : Path → Option Node := fun path => nodeAt t (root ++ path)

/-- Between two rounds of the second loop, which starts with the tree `t`. -/
structure Swapping (faults : RestoreOp → Bool) (staging : Path → Text) (files : List (Artifact × List UInt8))
    (roots : List Path) (t : Workspace) (s : Restoring) : Prop where
  slots : ∀ root ∈ roots, Slot staging root
    (swapped (treeAt t root) (expected files root) (decide (root ∈ s.saved)) (decide (root ∈ s.installed))) s.tree
  others : ∀ path, (∀ root ∈ roots, ¬ root <+: path ∧ ¬ stagingDir staging root <+: path) →
    nodeAt s.tree path = nodeAt t path
  staged : s.staged = roots
  found : ∀ root ∈ s.installed, (root ∈ s.saved ↔ finds faults t root = true)

/-- A round swaps the root in, or is the last. -/
theorem installRoot_keeps {t : Workspace} {s : Restoring} {root : Path} (hroots : Distinct staging roots)
    (hs : Swapping faults staging files roots t s) (hroot : root ∈ roots) (hsaved : root ∉ s.saved)
    (hinstalled : root ∉ s.installed) :
    Ensures (installRoot faults staging root) s fun r v => Swapping faults staging files roots t v ∧
      v.saved ⊆ root :: s.saved ∧
      (installs faults files t root = true ∧ r = .ok () ∧ v.installed = s.installed ++ [root] ∨
        installs faults files t root = false ∧ r ≠ .ok () ∧ v.installed = s.installed) := by
  have hslot := hs.slots root hroot
  rw [decide_eq_false hsaved, decide_eq_false hinstalled] at hslot
  have hsame : ∀ path, nodeAt s.tree (root ++ path) = nodeAt t (root ++ path) := hslot.kept .there
  refine (installRoot_spec (hroots.nonempty root hroot) (hroots.stagingDir_apart hroot hroot) hslot).mono fun r v hv => ?_
  obtain ⟨hout, hstaged, saved, installed, hsaved', hinstalled', hslot', hfound, hfinds, hinstalls, hr⟩ := hv
  rw [installs_congr hsame] at hinstalls
  rw [finds_congr hsame] at hfound hfinds
  have hmemSaved : ∀ other, other ∈ v.saved ↔ other ∈ s.saved ∨ saved = true ∧ other = root := by
    intro other
    rw [hsaved']
    cases saved <;> simp
  have hmemInstalled : ∀ other, other ∈ v.installed ↔ other ∈ s.installed ∨ installed = true ∧ other = root := by
    intro other
    rw [hinstalled']
    cases installed <;> simp
  refine ⟨⟨fun other ho => ?_, fun path hpath => ?_, hstaged.trans hs.staged, fun other ho => ?_⟩, fun other ho => ?_, ?_⟩
  · by_cases heq : other = root
    · subst heq
      have hflags : decide (other ∈ v.saved) = saved ∧ decide (other ∈ v.installed) = installed := by
        simp [hmemSaved, hmemInstalled, hsaved, hinstalled]
      rw [hflags.1, hflags.2]
      exact hslot'
    · have hflags : decide (other ∈ v.saved) = decide (other ∈ s.saved) ∧
          decide (other ∈ v.installed) = decide (other ∈ s.installed) := by
        simp [hmemSaved, hmemInstalled, heq]
      rw [hflags.1, hflags.2]
      exact (hs.slots other ho).frame hroots ho hroot heq hout
  · rw [hout path (hpath root hroot).1 (hpath root hroot).2]
    exact hs.others path hpath
  · obtain ho | ⟨hyes, rfl⟩ := (hmemInstalled other).1 ho
    · have hne : other ≠ root := fun heq => hinstalled (heq ▸ ho)
      rw [← hs.found other ho, hmemSaved]
      simp [hne]
    · rw [hmemSaved, or_iff_right hsaved, and_iff_left rfl, hfinds hyes]
  · obtain ho | ⟨-, rfl⟩ := (hmemSaved other).1 ho
    · exact List.mem_cons_of_mem _ ho
    · exact List.mem_cons_self
  · cases installed with
    | true => exact .inl ⟨hinstalls.symm, hr.1 rfl, hinstalled'⟩
    | false => exact .inr ⟨hinstalls.symm, fun h => by simpa using hr.2 h, hinstalled'⟩

/-- The roots before the first whose swap does not go through are swapped. -/
theorem installRoots_spec {t : Workspace} (hroots : Distinct staging roots) : ∀ {rest : List Path} {s : Restoring},
    s.installed ++ rest = roots → s.saved ⊆ s.installed → Swapping faults staging files roots t s →
    Ensures (rest.forM (installRoot faults staging)) s fun r v => Swapping faults staging files roots t v ∧
      v.installed = s.installed ++ rest.takeWhile (installs faults files t) ∧ (r = .ok () → v.installed = roots)
  | [], s, hrest, _, hs => ⟨hs, by simp, fun _ => by simpa using hrest⟩
  | root :: rest, s, hrest, hsaved, hs => by
    have hnodup := hroots.nodup
    rw [← hrest, List.nodup_append] at hnodup
    have hinstalled : root ∉ s.installed := fun h => hnodup.2.2 root h root List.mem_cons_self rfl
    refine (installRoot_keeps hroots hs (hrest ▸ List.mem_append_right _ List.mem_cons_self)
      (fun h => hinstalled (hsaved h)) hinstalled).bind (fun e v hv => ?_) fun _ v hv => ?_
    · obtain ⟨hv, -, ⟨-, he, -⟩ | ⟨hno, -, hsame⟩⟩ := hv
      · cases he
      · exact ⟨hv, by simp [hno, hsame], by simp⟩
    · obtain ⟨hv, hsub, ⟨hyes, -, hmore⟩ | ⟨-, hr, -⟩⟩ := hv
      · refine (installRoots_spec hroots ?_ ?_ hv).mono fun r w hw => ⟨hw.1, ?_, hw.2.2⟩
        · rw [hmore, List.append_assoc, List.singleton_append, hrest]
        · intro other ho
          rw [hmore]
          obtain rfl | ho := List.mem_cons.1 (hsub ho)
          · simp
          · exact List.mem_append_left _ (hsaved ho)
        · rw [hw.2.1, hmore, List.takeWhile_cons_of_pos hyes, List.append_assoc, List.singleton_append]
      · exact absurd rfl hr

/-! ## The rollback -/

/-- A step for one root, failed or not. -/
def AtRoot (staging : Path → Text) (root : Path) (s v : Restoring) : Prop :=
  Outside staging root s.tree v.tree ∧ SameSwaps s v ∧ v.staged = s.staged

theorem AtRoot.refl (root : Path) (s : Restoring) : AtRoot staging root s s := ⟨Outside.refl _ _, ⟨rfl, rfl⟩, rfl⟩

theorem AtRoot.trans {root : Path} {s u v : Restoring} (h : AtRoot staging root s u) (h' : AtRoot staging root u v) :
    AtRoot staging root s v :=
  ⟨h.1.trans h'.1, ⟨h'.2.1.1.trans h.2.1.1, h'.2.1.2.trans h.2.1.2⟩, h'.2.2.trans h.2.2⟩

theorem perform_rename_spec (src dst : Place) {op : RestoreOp} {root : Path} {holds : Place → Path → Option Node}
    {s : Restoring} (hne : root ≠ []) (hroot : Apart (stagingDir staging root) root) (hplaces : src ≠ dst)
    (hslot : Slot staging root holds s.tree) :
    Ensures (perform faults op (rename (src.path staging root) (dst.path staging root))) s fun r v =>
      AtRoot staging root s v ∧ (r = .ok () →
        Slot staging root (Function.update (Function.update holds dst (holds src)) src fun _ => none) v.tree) := by
  refine ensures_perform ⟨AtRoot.refl _ _, by simp⟩ fun tree _ htree => ?_
  obtain rfl := rename_eq_some htree
  obtain ⟨hmoved, hout⟩ := hslot.move src dst hne hroot hplaces
  exact ⟨⟨hout, ⟨rfl, rfl⟩, rfl⟩, fun _ => hmoved⟩

/-- What is at a root that is swapped back: nothing, if it was swapped in over
what the lookup did not find. -/
def undone (orig : Path → Option Node) (saved installed : Bool) : Path → Option Node :=
  if installed = true ∧ saved = false then fun _ => none else orig

theorem undoRoot_spec {root : Path} {orig new : Path → Option Node} {s : Restoring} (hne : root ≠ [])
    (hroot : Apart (stagingDir staging root) root)
    (hslot : Slot staging root (swapped orig new (decide (root ∈ s.saved)) (decide (root ∈ s.installed))) s.tree) :
    Ensures (undoRoot faults staging root) s fun r v => AtRoot staging root s v ∧
      (r = .ok () → treeAt v.tree root = undone orig (decide (root ∈ s.saved)) (decide (root ∈ s.installed))) := by
  -- the second rename, from where the first left the root
  have hsave : ∀ (holds : Place → Path → Option Node) (v : Restoring), AtRoot staging root s v →
      Slot staging root holds v.tree → (root ∈ s.saved → holds .old = orig) →
      (root ∉ s.saved → holds .there = undone orig false (decide (root ∈ s.installed))) →
      Ensures (if root ∈ s.saved then perform faults (.undoSave root) (rename (oldPath staging root) root) else pure ⟨⟩ :
        RestoreProg Unit) v fun r w => AtRoot staging root s w ∧
          (r = .ok () → treeAt w.tree root = undone orig (decide (root ∈ s.saved)) (decide (root ∈ s.installed))) := by
    intro holds v hv hslot hold hthere
    by_cases hsaved : root ∈ s.saved
    · rw [if_pos hsaved, decide_eq_true hsaved]
      refine (perform_rename_spec .old .there hne hroot (by decide) hslot).mono fun r w hw =>
        ⟨hv.trans hw.1, fun hr => funext fun path => ?_⟩
      have hkept := (hw.2 hr).kept .there path
      rw [Function.update_of_ne (by decide), Function.update_self, hold hsaved] at hkept
      simpa [undone, treeAt, Place.path] using hkept
    · rw [if_neg hsaved, decide_eq_false hsaved]
      refine ⟨hv, fun _ => funext fun path => ?_⟩
      rw [← hthere hsaved]
      exact hslot.kept .there path
  unfold undoRoot
  rw [ensures_get_bind]
  by_cases hinstalled : root ∈ s.installed
  · rw [if_pos hinstalled]
    refine (perform_rename_spec .there .failed hne hroot (by decide) hslot).bind
      (fun _ _ h => ⟨h.1, by simp⟩) fun _ v hv => ?_
    refine hsave _ v hv.1 (hv.2 rfl) (fun hsaved => ?_) fun hsaved => ?_
    · rw [Function.update_of_ne (by decide), Function.update_of_ne (by decide)]
      simp [swapped, hsaved]
    · rw [Function.update_self]
      simp [undone, hinstalled]
  · rw [if_neg hinstalled]
    refine hsave _ s (AtRoot.refl _ _) hslot (fun hsaved => ?_) fun hsaved => ?_
    · simp [swapped, hsaved]
    · simp [swapped, undone, hinstalled, hsaved]

theorem dropStaging_spec {root : Path} (hroot : Apart (stagingDir staging root) root) (s : Restoring) :
    Ensures (dropStaging faults staging root) s fun r v => r = .ok () ∧ AtRoot staging root s v ∧
      treeAt v.tree root = treeAt s.tree root := by
  unfold dropStaging Ensures
  rw [outcome_modify]
  split
  · exact ⟨rfl, AtRoot.refl _ _, rfl⟩
  · refine ⟨rfl, ⟨fun path _ hdir => ?_, ⟨rfl, rfl⟩, rfl⟩, funext fun path => ?_⟩
    · rw [nodeAt_prune, if_neg hdir]
    · rw [treeAt, nodeAt_prune, if_neg (hroot.not_within (List.prefix_append _ _))]
      rfl

theorem rollbackRoot_spec {root : Path} {orig new : Path → Option Node} {s : Restoring} (hne : root ≠ [])
    (hroot : Apart (stagingDir staging root) root)
    (hslot : Slot staging root (swapped orig new (decide (root ∈ s.saved)) (decide (root ∈ s.installed))) s.tree) :
    Ensures (rollbackRoot faults staging root) s fun r v => AtRoot staging root s v ∧ ∃ error, r = .ok error ∧
      (error = none →
        treeAt v.tree root = undone orig (decide (root ∈ s.saved)) (decide (root ∈ s.installed))) := by
  unfold rollbackRoot
  rw [ensures_tryCatch]
  refine (undoRoot_spec hne hroot hslot).bind (fun e v hv => ⟨hv.1, _, rfl, by simp⟩) fun _ v hv => ?_
  refine (dropStaging_spec hroot v).bind (fun e w hw => by cases hw.1) fun _ w hw => ?_
  exact ⟨hv.1.trans hw.2.1, none, rfl, fun _ => hw.2.2.trans (hv.2 rfl)⟩

variable {t : Workspace}

/-- The rollback changes its own roots only, and where it reports no error each
is undone. -/
theorem rollback_spec (hroots : Distinct staging roots) : ∀ {rest : List Path} {s : Restoring}, rest.Nodup → rest ⊆ roots →
    (∀ root ∈ rest, Slot staging root (swapped (treeAt t root) (expected files root) (decide (root ∈ s.saved))
      (decide (root ∈ s.installed))) s.tree) →
    Ensures (rollback faults staging rest) s fun r v => ∃ errors, r = .ok errors ∧
      (∀ root ∈ roots, root ∉ rest → treeAt v.tree root = treeAt s.tree root) ∧
      (errors = [] → ∀ root ∈ rest, treeAt v.tree root =
        undone (treeAt t root) (decide (root ∈ s.saved)) (decide (root ∈ s.installed)))
  | [], s, _, _, _ => ⟨[], rfl, fun _ _ _ => rfl, by simp⟩
  | root :: rest, s, hnodup, hsub, hslots => by
    obtain ⟨hnew, hnodup⟩ := List.nodup_cons.1 hnodup
    obtain ⟨hroot, hsub⟩ := List.cons_subset.1 hsub
    obtain ⟨hslot, hslots⟩ := List.forall_mem_cons.1 hslots
    unfold rollback
    refine (rollbackRoot_spec (hroots.nonempty root hroot) (hroots.stagingDir_apart hroot hroot) hslot).bind
      (fun _ _ h => by obtain ⟨-, _, hr, -⟩ := h; cases hr) fun error u hu => ?_
    obtain ⟨⟨hout, hswaps, -⟩, _, hr, hundone⟩ := hu
    obtain rfl := Except.ok.inj hr
    have hsame : ∀ other ∈ roots, other ≠ root → treeAt u.tree other = treeAt s.tree other := fun other ho hne =>
      funext fun path => hroots.outside ho hroot hne hout (.inl (List.prefix_append _ _))
    have hslots' : ∀ other ∈ rest, Slot staging other (swapped (treeAt t other) (expected files other)
        (decide (other ∈ u.saved)) (decide (other ∈ u.installed))) u.tree := by
      intro other ho
      rw [hswaps.1, hswaps.2]
      exact (hslots other ho).frame hroots (hsub ho) hroot (fun heq => hnew (heq ▸ ho)) hout
    refine (rollback_spec hroots hnodup hsub hslots').bind (fun _ _ h => by obtain ⟨_, hr, -⟩ := h; cases hr)
      fun errors v hv => ?_
    obtain ⟨_, hr, hkept, hrest⟩ := hv
    obtain rfl := Except.ok.inj hr
    refine ⟨_, rfl, fun other ho hno => ?_, fun hnone => List.forall_mem_cons.2 ⟨?_, fun other ho => ?_⟩⟩
    · obtain ⟨hne, hno⟩ := not_or.1 (fun h => hno (List.mem_cons.2 h))
      exact (hkept other ho hno).trans (hsame other ho hne)
    · exact (hkept root hroot hnew).trans (hundone (by simpa using (List.append_eq_nil_iff.1 hnone).1))
    · have hother := hrest (List.append_eq_nil_iff.1 hnone).2 other ho
      rwa [hswaps.1, hswaps.2] at hother

/-- What is said after a failed swap, and where the previous outputs are said to
be restored. -/
theorem recover_spec {cause : RestoreError} {s : Restoring} (hroots : Distinct staging roots)
    (hs : Swapping faults staging files roots t s) :
    Ensures (recover faults staging cause) s fun r v =>
      (∃ errors, r = .error (.rollback cause errors)) ∨
        r = .error (.replace cause) ∧ ∀ root ∈ roots, treeAt v.tree root =
          undone (treeAt t root) (decide (root ∈ s.saved)) (decide (root ∈ s.installed)) := by
  unfold recover
  rw [ensures_get_bind, hs.staged]
  have hslots : ∀ root ∈ roots.reverse, Slot staging root (swapped (treeAt t root) (expected files root)
      (decide (root ∈ s.saved)) (decide (root ∈ s.installed))) s.tree := fun root hroot =>
    hs.slots root (List.mem_reverse.1 hroot)
  refine (rollback_spec hroots (List.nodup_reverse.2 hroots.nodup) (List.reverse_subset.2 (List.Subset.refl _)) hslots).bind
    (fun _ _ h => by obtain ⟨_, hr, -⟩ := h; cases hr) fun errors v hv => ?_
  obtain ⟨_, hr, -, hundone⟩ := hv
  obtain rfl := Except.ok.inj hr
  split
  · next hnone => exact .inr ⟨rfl, fun root hroot => hundone hnone root (List.mem_reverse.2 hroot)⟩
  · exact .inl ⟨errors, rfl⟩

/-- The second loop and what follows its failure. -/
theorem swapRoots_spec {s : Restoring} (hroots : Distinct staging roots) (hinstalled : s.installed = [])
    (hsaved : s.saved = []) (hs : Swapping faults staging files roots t s) :
    Ensures (tryCatch (roots.forM (installRoot faults staging)) (recover faults staging)) s fun r v => match r with
      | .ok _ => Swapping faults staging files roots t v ∧ v.installed = roots
      | .error (.replace _) => ∃ failed : Restoring, Swapping faults staging files roots t failed ∧
          failed.installed = roots.takeWhile (installs faults files t) ∧ ∀ root ∈ roots, treeAt v.tree root =
            undone (treeAt t root) (decide (root ∈ failed.saved)) (decide (root ∈ failed.installed))
      | .error (.rollback _ _) => True
      | .error _ => False := by
  rw [ensures_tryCatch]
  refine (installRoots_spec hroots (by rw [hinstalled, List.nil_append]) (by simp [hsaved]) hs).mono fun r v hv => ?_
  obtain ⟨hv, hwhich, hall⟩ := hv
  rw [hinstalled, List.nil_append] at hwhich
  cases r with
  | ok => exact ⟨hv, hall rfl⟩
  | error cause =>
    refine (recover_spec hroots hv).mono fun r w hw => ?_
    obtain ⟨errors, rfl⟩ | ⟨rfl, hundone⟩ := hw
    · trivial
    · exact ⟨v, hv, hwhich, hundone⟩

end Bellows.Cli.Restore
