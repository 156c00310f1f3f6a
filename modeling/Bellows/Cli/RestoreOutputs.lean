/-
What a restore leaves behind, whichever of its operations fail: all of the
record's outputs, or the output trees that were there. It keeps the first where
every output is under a declared path by the components that it cuts paths into,
and not only by those of the record's check.
-/
import Bellows.Cli.RestoreSwap

namespace Bellows.Cli.Restore

open Text Trees Prog Bellows.Core

variable {faults : RestoreOp → Bool} {staging : Path → Text} {files : List (Artifact × List UInt8)} {roots : List Path}

/-! ## Before the loops -/

theorem mkdir_under {dir path : Path} {t t' : Workspace} (hdir : dir <+: path) (h : mkdir path t = some t') :
    Under dir t t' := by
  unfold mkdir at h
  split at h
  · obtain rfl := Option.some.inj h
    exact under_put hdir
  · cases h

theorem createState_under {t t' : Workspace} (h : createState t = some t') : Under STATE t t' := by
  unfold createState at h
  split at h
  case h_1 => exact mkdir_under List.prefix_rfl h
  case h_4 => cases h
  all_goals
    obtain rfl := Option.some.inj h
    exact fun _ _ => rfl

theorem openLock_under {t t' : Workspace} (h : openLock t = some t') : Under STATE t t' := by
  unfold openLock at h
  split at h
  · split at h
    · obtain rfl := Option.some.inj h
      exact under_put (by decide)
    · obtain rfl := Option.some.inj h
      exact fun _ _ => rfl
  · cases h
  · obtain rfl := Option.some.inj h
    exact fun _ _ => rfl

/-- The tree once the lock is held. -/
def locked (t : Workspace) : Option Workspace := (createState t).bind openLock

/-! ## The staging directories dropped -/

/-- The directories whose removal does not fail are gone, and nothing else. -/
theorem dropStagings_spec : ∀ (roots : List Path) (s : Restoring),
    Ensures (roots.forM (dropStaging faults staging)) s fun r v => r = .ok () ∧
      ∀ path, ((∃ root ∈ roots, faults (.cleanUp root) = false ∧ stagingDir staging root <+: path) → nodeAt v.tree path = none) ∧
        ((∀ root ∈ roots, stagingDir staging root <+: path → faults (.cleanUp root) = true) →
          nodeAt v.tree path = nodeAt s.tree path)
  | [], s => ⟨rfl, by simp⟩
  | root :: roots, s => by
    have hone : Ensures (dropStaging faults staging root) s fun r v => r = .ok () ∧
        v.tree = if faults (.cleanUp root) then s.tree else prune s.tree (stagingDir staging root) := by
      unfold dropStaging Ensures
      rw [outcome_modify]
      split <;> exact ⟨rfl, rfl⟩
    refine hone.bind (fun _ _ h => by cases h.1) fun _ u hu => ?_
    refine (dropStagings_spec roots u).mono fun r v hv => ⟨hv.1, fun path => ⟨fun hgone => ?_, fun hkept => ?_⟩⟩
    · by_cases hrest : ∃ root ∈ roots, faults (.cleanUp root) = false ∧ stagingDir staging root <+: path
      · exact (hv.2 path).1 hrest
      · rw [(hv.2 path).2 fun other ho hpre => by_contra fun hfault => hrest ⟨other, ho, by simpa using hfault, hpre⟩]
        obtain ⟨other, ho, hfault, hpre⟩ := hgone
        obtain rfl | ho := List.mem_cons.1 ho
        · rw [hu.2, hfault, if_neg (by decide), nodeAt_prune, if_pos hpre]
        · exact absurd ⟨other, ho, hfault, hpre⟩ hrest
    · obtain ⟨hroot, hkept⟩ := List.forall_mem_cons.1 hkept
      rw [(hv.2 path).2 hkept, hu.2]
      split
      · rfl
      · next hfault =>
        rw [nodeAt_prune, if_neg fun hpre => hfault (hroot hpre)]

theorem dropAll_spec (s : Restoring) : Ensures (dropAll faults staging) s fun r v => r = .ok () ∧
    ∀ path, ((∃ root ∈ s.staged, faults (.cleanUp root) = false ∧ stagingDir staging root <+: path) → nodeAt v.tree path = none) ∧
      ((∀ root ∈ s.staged, stagingDir staging root <+: path → faults (.cleanUp root) = true) →
        nodeAt v.tree path = nodeAt s.tree path) := dropStagings_spec s.staged s

/-! ## What the first half fails with -/

/-- It says nothing of a replacement. -/
def RestoreError.Plain : RestoreError → Prop
  | .refused _ | .failed _ => True
  | .replace _ | .rollback _ _ => False

def FailsPlainly {α : Type} (x : RestoreProg α) : Prop := ∀ s, Ensures x s fun r _ => ∀ e, r = .error e → e.Plain

theorem FailsPlainly.bind {α β : Type} {x : RestoreProg α} {f : α → RestoreProg β} (hx : FailsPlainly x)
    (hf : ∀ a, FailsPlainly (f a)) : FailsPlainly (x >>= f) := fun s =>
  (hx s).bind (fun _ _ h _ heq => h _ (congrArg Except.error (Except.error.inj heq))) fun a t _ => hf a t

theorem failsPlainly_pure {α : Type} (a : α) : FailsPlainly (pure a) := fun _ _ h => by cases h

theorem failsPlainly_throw {α : Type} {e : RestoreError} (h : e.Plain) : FailsPlainly (throw e : RestoreProg α) :=
  fun _ _ heq => by cases heq; exact h

theorem failsPlainly_perform (op : RestoreOp) (act : Workspace → Option Workspace) : FailsPlainly (perform faults op act) :=
  fun _ => ensures_perform (fun _ heq => by cases heq; trivial) fun _ _ _ _ heq => by cases heq

theorem failsPlainly_forM {α : Type} {step : α → RestoreProg PUnit} (h : ∀ a, FailsPlainly (step a)) :
    ∀ l : List α, FailsPlainly (l.forM step)
  | [] => failsPlainly_pure _
  | a :: l => (h a).bind fun _ => failsPlainly_forM h l

theorem failsPlainly_get_bind {β : Type} {f : Restoring → RestoreProg β} (h : ∀ s, FailsPlainly (f s)) :
    FailsPlainly (get >>= f) := fun s => h s s

theorem failsPlainly_safeDestination (root : Path) : FailsPlainly (safeDestination faults root) := by
  refine (failsPlainly_forM (fun path => failsPlainly_get_bind fun s => ?_) _).bind fun _ => failsPlainly_get_bind fun s => ?_
  · split
    · exact failsPlainly_perform _ _
    · refine (failsPlainly_perform _ _).bind fun _ => ?_
      split
      · exact failsPlainly_throw trivial
      · exact failsPlainly_pure _
  · split
    · exact failsPlainly_throw trivial
    · exact failsPlainly_pure _

theorem failsPlainly_replaceFile (root path target : Path) (bytes : List UInt8) :
    FailsPlainly (replaceFile faults root path target bytes) := by
  refine failsPlainly_get_bind fun s => ?_
  split
  · split
    · split
      · exact failsPlainly_throw trivial
      · exact failsPlainly_pure _
    · exact failsPlainly_throw trivial
  · exact fun _ => failsPlainly_perform _ _ _

theorem failsPlainly_stageFile (root : Path) (file : Artifact × List UInt8) :
    FailsPlainly (stageFile faults staging root file) := by
  unfold stageFile
  split
  · exact failsPlainly_throw trivial
  split
  · exact failsPlainly_pure _
  refine (failsPlainly_perform _ _).bind fun _ => (failsPlainly_perform _ _).bind fun _ =>
    (failsPlainly_replaceFile _ _ _ _).bind fun _ => ?_
  split
  · exact failsPlainly_perform _ _
  · exact failsPlainly_pure _

theorem failsPlainly_stageRoot (root : Path) : FailsPlainly (stageRoot faults staging files root) := by
  refine (failsPlainly_safeDestination root).bind fun _ => (failsPlainly_perform _ _).bind fun _ => ?_
  have hrest : FailsPlainly (files.forM (stageFile faults staging root)) := failsPlainly_forM (failsPlainly_stageFile root) _
  refine fun _ => ?_
  rw [ensures_modify_bind]
  split
  · exact (failsPlainly_perform _ _).bind (fun _ => hrest) _
  · exact hrest _

/-! ## What a restore is for -/

/-- What is there is in a directory. -/
def WellFormed (t : Workspace) : Prop := ∀ path name, nodeAt t (path ++ [name]) ≠ none → nodeAt t path = some .directory

/-- Under the roots are the outputs, and the directories that hold them;
elsewhere nothing changed, but that a root's own directories were made. -/
structure Restored (files : List (Artifact × List UInt8)) (roots : List Path) (t t' : Workspace) : Prop where
  complete : ∀ file ∈ files, nodeAt t' file.1.path = some (.file file.2 file.1.executable)
  nothingElse : ∀ root ∈ roots, ∀ path node, nodeAt t' (root ++ path) = some node →
    (∃ file ∈ files, file.1.path = root ++ path) ∨
      node = .directory ∧ (path = [] ∨ ∃ file ∈ files, root ++ path <+: file.1.path)
  elsewhere : ∀ path, ¬ STATE <+: path → (∀ root ∈ roots, ¬ root <+: path) → nodeAt t' path = nodeAt t path ∨
    nodeAt t path = none ∧ nodeAt t' path = some .directory ∧ ∃ root ∈ roots, path <+: root

/-- Every output tree is as it was. -/
def Unharmed (roots : List Path) (t t' : Workspace) : Prop := ∀ root ∈ roots, treeAt t' root = treeAt t root

theorem WellFormed.none_below {t : Workspace} {dir : Path} (h : WellFormed t) (hnone : nodeAt t dir = none) :
    ∀ path, nodeAt t (dir ++ path) = none := by
  intro path
  induction path using List.reverseRecOn with
  | nil => rwa [List.append_nil]
  | append_singleton path name ih =>
    by_contra hsome
    rw [← List.append_assoc] at hsome
    rw [h _ _ hsome] at ih
    cases ih

section Frames

variable {t u : Workspace}

theorem treeAt_of_under_state {root : Path} (hlayout : Layout staging roots) (hroot : root ∈ roots) (h : Under STATE t u) :
    treeAt u root = treeAt t root :=
  funext fun _ => h _ ((hlayout.state_apart hroot).not_within (List.prefix_append _ _))

/-- The first half leaves the trees at the roots alone. -/
theorem OnlyAbove.treeAt {staged : List Path} {root : Path} (h : OnlyAbove staging roots staged t u)
    (hlayout : Layout staging roots) (hsub : ∀ other ∈ staged, other ∈ roots) (hroot : root ∈ roots) :
    treeAt u root = treeAt t root := by
  funext path
  obtain heq | ⟨-, -, other, ho, hpre, hne⟩ := h (root ++ path) fun other ho =>
    (hlayout.stagingDir_apart (hsub other ho) hroot).not_within (List.prefix_append _ _)
  · exact heq
  · -- no path at a root is above one
    by_cases heq : root = other
    · subst heq
      exact absurd (hpre.eq_of_length (le_antisymm hpre.length_le (by simp))) hne
    · exact absurd ((List.prefix_append _ _).trans hpre) (hlayout.apart_of_ne hroot ho heq).1

end Frames

/-- A file under a root is in the tree built for it. -/
theorem expected_of_mem {file : Artifact × List UInt8} {root path : Path} (hnodup : (files.map (·.1.path)).Nodup)
    (hfile : file ∈ files) (hpath : file.1.path = root ++ path) :
    expected files root path = some (.file file.2 file.1.executable) := by
  have hfind : files.find? (·.1.path = root ++ path) = some file := by
    obtain ⟨other, hother⟩ : ∃ other, files.find? (·.1.path = root ++ path) = some other :=
      Option.isSome_iff_exists.1 (List.find?_isSome.2 ⟨file, hfile, by simpa using hpath⟩)
    have hsame : other.1.path = file.1.path := by
      have hsome := List.find?_some hother
      rw [hpath]
      simpa using hsome
    rw [hother, List.inj_on_of_nodup_map hnodup (List.mem_of_find?_eq_some hother) hfile hsame]
  rw [expected, content, hfind]

/-- What is in that tree is a file, or holds one. -/
theorem expected_eq_some {root path : Path} {node : Node} (h : expected files root path = some node) :
    (∃ file ∈ files, file.1.path = root ++ path) ∨
      node = .directory ∧ (path = [] ∨ ∃ file ∈ files, root ++ path <+: file.1.path) := by
  unfold expected content at h
  split at h
  · next file hfind => exact .inl ⟨file, List.mem_of_find?_eq_some hfind, by simpa using List.find?_some hfind⟩
  · split at h
    · next hheld => exact .inr ⟨(Option.some.inj h).symm, hheld.imp_left (·.1)⟩
    · cases h

/-! ## The three ways out -/

section Ways

variable {t u v w : Workspace}

/-- The tree `w` at the end of a restore that got through: `u` is the tree once
the lock is held. -/
structure Finished (faults : RestoreOp → Bool) (staging : Path → Text) (files : List (Artifact × List UInt8))
    (roots : List Path) (u w : Workspace) : Prop where
  swapped : ∀ root ∈ roots, treeAt w root = expected files root
  free : ∀ root ∈ roots, nodeAt u (stagingDir staging root) = none
  gone : ∀ root ∈ roots, faults (.cleanUp root) = false → ∀ path, stagingDir staging root <+: path → nodeAt w path = none
  left : ∀ root ∈ roots, faults (.cleanUp root) = true → nodeAt w (stagingDir staging root) ≠ none
  others : ∀ path, (∀ root ∈ roots, ¬ root <+: path ∧ ¬ stagingDir staging root <+: path) →
    nodeAt w path = nodeAt u path ∨
      nodeAt u path = none ∧ nodeAt w path = some .directory ∧ ∃ root ∈ roots, path <+: root ∧ path ≠ root

theorem Finished.restored_iff (h : Finished faults staging files roots u w) (hlayout : Layout staging roots)
    (ht : WellFormed t) (hlocked : Under STATE t u) (hnodup : (files.map (·.1.path)).Nodup) :
    Restored files roots t w ↔
      (∀ file ∈ files, (∃ root ∈ roots, root <+: file.1.path) ∨
        nodeAt u file.1.path = some (.file file.2 file.1.executable)) ∧
      ∀ root ∈ roots, faults (.cleanUp root) = false := by
  -- nothing was where a staging directory is
  have hwas : ∀ root ∈ roots, ∀ path, stagingDir staging root <+: path → nodeAt t path = none ∧ nodeAt u path = none := by
    intro root hroot path hpath
    have hstate : ∀ path, stagingDir staging root <+: path → nodeAt u path = nodeAt t path := fun path hpath =>
      hlocked path ((hlayout.state_stagingDir hroot).not_within hpath)
    obtain ⟨rest, rfl⟩ := hpath
    have hdir : nodeAt t (stagingDir staging root) = none := by
      rw [← hstate _ List.prefix_rfl]
      exact h.free root hroot
    have hnone := ht.none_below hdir rest
    exact ⟨hnone, (hstate _ (List.prefix_append _ _)).trans hnone⟩
  constructor
  · intro hrestored
    have hclean : ∀ root ∈ roots, faults (.cleanUp root) = false := by
      intro root hroot
      by_contra hfault
      have hleft := h.left root hroot (by simpa using hfault)
      obtain heq | ⟨-, -, other, ho, hpre⟩ := hrestored.elsewhere (stagingDir staging root)
        (hlayout.state_stagingDir hroot).1 fun other ho => (hlayout.stagingDir_apart hroot ho).2
      · rw [heq, (hwas root hroot _ List.prefix_rfl).1] at hleft
        exact hleft rfl
      · exact (hlayout.stagingDir_apart hroot ho).1 hpre
    refine ⟨fun file hfile => or_iff_not_imp_left.2 fun huncovered => ?_, hclean⟩
    have hthere := hrestored.complete file hfile
    obtain heq | ⟨-, hdir, -⟩ := h.others file.1.path fun root hroot =>
      ⟨fun hpre => huncovered ⟨root, hroot, hpre⟩, fun hpre => by
        rw [h.gone root hroot (hclean root hroot) _ hpre] at hthere
        cases hthere⟩
    · rwa [← heq]
    · rw [hthere] at hdir
      cases hdir
  · intro ⟨hfiles, hclean⟩
    refine ⟨fun file hfile => ?_, fun root hroot path node hnode => ?_, fun path hstate hpath => ?_⟩
    · by_cases hcovered : ∃ root ∈ roots, root <+: file.1.path
      · obtain ⟨root, hroot, path, hpath⟩ := hcovered
        rw [← expected_of_mem hnodup hfile hpath.symm, ← h.swapped root hroot, ← hpath]
        rfl
      · have hthere := (hfiles file hfile).resolve_left hcovered
        obtain heq | ⟨hnone, -⟩ := h.others file.1.path fun root hroot =>
          ⟨fun hpre => hcovered ⟨root, hroot, hpre⟩, fun hpre => by
            rw [(hwas root hroot _ hpre).2] at hthere
            cases hthere⟩
        · rw [heq, hthere]
        · rw [hthere] at hnone
          cases hnone
    · exact expected_eq_some ((congrFun (h.swapped root hroot) path).symm.trans hnode)
    · by_cases hstaging : ∃ root ∈ roots, stagingDir staging root <+: path
      · obtain ⟨root, hroot, hpre⟩ := hstaging
        rw [h.gone root hroot (hclean root hroot) _ hpre, (hwas root hroot _ hpre).1]
        exact .inl rfl
      · obtain heq | ⟨hnone, hdir, root, hroot, hpre, -⟩ := h.others path fun root hroot =>
          ⟨hpath root hroot, fun hpre => hstaging ⟨root, hroot, hpre⟩⟩
        · rw [heq, hlocked path hstate]
          exact .inl rfl
        · rw [hlocked path hstate] at hnone
          exact .inr ⟨hnone, hdir, root, hroot, hpre⟩

/-- After a rollback a root is as it was, but where an old output that was not
found gave way. -/
theorem unharmed_iff (ht : WellFormed t) {saved installed : Path → Bool}
    (hundone : ∀ root ∈ roots, treeAt w root = undone (treeAt t root) (saved root) (installed root))
    (hfound : ∀ root ∈ roots, installed root = true → saved root = finds faults t root) :
    Unharmed roots t w ↔
      ∀ root ∈ roots, installed root = true → faults (.lookOld root) = true → nodeAt t root = none := by
  constructor
  · intro hsame root hroot hinstalled hlook
    have hnotsaved : saved root = false := by rw [hfound root hroot hinstalled, finds, hlook]; rfl
    have hthere := congrFun ((hundone root hroot).symm.trans (hsame root hroot)) []
    rw [undone, if_pos ⟨hinstalled, hnotsaved⟩, treeAt, List.append_nil] at hthere
    exact hthere.symm
  · intro hnone root hroot
    rw [hundone root hroot, undone]
    split
    · next hlost =>
      have hempty : nodeAt t root = none := by
        have hfinds := hfound root hroot hlost.1
        rw [hlost.2, finds] at hfinds
        by_cases hlook : faults (.lookOld root) = true
        · exact hnone root hroot hlost.1 hlook
        · simpa [hlook] using hfinds.symm
      exact funext fun path => (ht.none_below hempty path).symm
    · rfl

/-- Where the second loop starts. -/
theorem Staged.swapping {s : Restoring} (h : Staged staging files roots t s) (hstaged : s.staged = roots)
    (hlayout : Layout staging roots) : Distinct staging roots ∧ Swapping faults staging files roots s.tree s := by
  obtain ⟨hsaved, hinstalled⟩ := h.swaps
  have hdirs := h.distinct
  rw [hstaged] at hdirs
  have hdistinct : ∀ root ∈ roots, ∀ other ∈ roots, root ≠ other → stagingDir staging root ≠ stagingDir staging other := by
    have hsymm : Std.Symm fun a b => stagingDir staging a ≠ stagingDir staging b := ⟨fun _ _ => Ne.symm⟩
    intro root hroot other hother
    exact hdirs.forall hroot hother
  refine ⟨{ toLayout := hlayout, dirs := hdistinct }, fun root hroot => ?_, fun _ _ => rfl, hstaged, by simp [hinstalled]⟩
  have hroot := hstaged ▸ hroot
  have hkept : ∀ name path, nodeAt s.tree (stagingDir staging root ++ [name] ++ path) =
      if name = "new".toList then expected files root path else none := by
    intro name path
    rw [List.append_assoc]
    exact h.holds root hroot (name :: path)
  have hdir := h.holds root hroot []
  rw [List.append_nil] at hdir
  refine ⟨h.parent root hroot, hdir, fun place path => ?_⟩
  rw [hsaved, hinstalled]
  cases place with
  | there => rfl
  | new => exact hkept _ path
  | old => exact hkept _ path
  | failed => exact hkept _ path

/-- What the second loop leaves where it got through, once the staging
directories are dropped. -/
theorem Swapping.finished {before s : Restoring} (h : Swapping faults staging files roots before.tree s)
    (hbefore : Staged staging files roots u before) (hstaged : before.staged = roots) (hroots : Distinct staging roots)
    (hinstalled : s.installed = roots)
    (hdropped : ∀ path,
      ((∃ root ∈ roots, faults (.cleanUp root) = false ∧ stagingDir staging root <+: path) → nodeAt w path = none) ∧
      ((∀ root ∈ roots, stagingDir staging root <+: path → faults (.cleanUp root) = true) →
        nodeAt w path = nodeAt s.tree path)) : Finished faults staging files roots u w where
  swapped := by
    intro root hroot
    funext path
    have hkept := (h.slots root hroot).kept .there path
    rw [hinstalled, decide_eq_true hroot] at hkept
    rw [treeAt, (hdropped (root ++ path)).2 fun other ho hpre =>
      absurd hpre ((hroots.stagingDir_apart ho hroot).not_within (List.prefix_append _ _))]
    exact hkept
  free := fun root hroot => hbefore.free root (hstaged ▸ hroot)
  gone := fun root hroot hfault path hpre => (hdropped path).1 ⟨root, hroot, hfault, hpre⟩
  left := by
    intro root hroot hfault
    rw [(hdropped (stagingDir staging root)).2 fun other ho hpre => ?_, (h.slots root hroot).dir]
    · simp
    · by_cases heq : other = root
      · rwa [heq]
      · exact absurd hpre (hroots.stagingDirs_apart ho hroot (hroots.dirs other ho root hroot heq)).1
  others := by
    intro path hpath
    rw [(hdropped path).2 fun root hroot hpre => absurd hpre (hpath root hroot).2, h.others path hpath]
    exact hbefore.above path fun root hroot => (hpath root (hstaged ▸ hroot)).2

end Ways

/-! ## The whole restore -/

def start (t : Workspace) : Restoring := { tree := t, staged := [], saved := [], installed := [] }

/-- The lock, failed or not. -/
theorem lock_spec {β : Type} {rest : RestoreProg β} {t : Workspace} {Q : Except RestoreError β → Restoring → Prop}
    (herror : ∀ e u, e.Plain → Under STATE t u → Q (.error e) (start u))
    (hok : ∀ u, locked t = some u → Under STATE t u → Ensures rest (start u) Q) :
    Ensures (do
      perform faults .createState createState
      perform faults .openLock openLock
      perform faults .lock some
      rest) (start t) Q := by
  rw [ensures_bind]
  refine ensures_perform (herror _ _ trivial fun _ _ => rfl) fun u _ hu => ?_
  have hstate := createState_under hu
  rw [ensures_bind]
  refine ensures_perform (herror _ _ trivial hstate) fun v _ hv => ?_
  have hstate := hstate.trans (openLock_under hv)
  rw [ensures_bind]
  refine ensures_perform (herror _ _ trivial hstate) fun w _ hw => ?_
  obtain rfl := Option.some.inj hw
  exact hok _ (Option.bind_eq_some_iff.2 ⟨u, hu, hv⟩) hstate

theorem takeWhile_congr {α : Type} {p q : α → Bool} : ∀ {l : List α}, (∀ a ∈ l, p a = q a) → l.takeWhile p = l.takeWhile q
  | [], _ => rfl
  | a :: l, h => by
    obtain ⟨ha, hl⟩ := List.forall_mem_cons.1 h
    rw [List.takeWhile_cons, List.takeWhile_cons, ha, takeWhile_congr hl]

/-- An output under an outermost root is one under a declared path. -/
theorem exists_outputRoots_iff {r : DeclaredActionRecord} {path : Path} :
    (∃ root ∈ outputRoots r, root <+: path) ↔ ∃ declared ∈ r.outputPaths, declared.splitOnP (· == '/') <+: path := by
  constructor
  · intro ⟨root, hroot, hpre⟩
    obtain ⟨declared, hdeclared, rfl⟩ := List.mem_map.1 (mem_of_mem_outermost hroot)
    exact ⟨declared, hdeclared, hpre⟩
  · intro ⟨declared, hdeclared, hpre⟩
    obtain ⟨root, hroot, hcovers⟩ := outermost_covers (List.mem_map_of_mem hdeclared)
    exact ⟨root, hroot, hcovers.trans hpre⟩

/-- A restore that gets through leaves exactly the outputs where each is under a
declared path, component by component, or was there before, and every staging
directory could be removed. One whose rollback gets through leaves the previous
outputs but for those that a failed lookup hid and that were then replaced. -/
theorem declaredOutputs_restores {actionKey : DeclaredActionKey} {r : DeclaredActionRecord} {t : Workspace}
    (hvalid : validateDeclaredRecord actionKey r = .ok ()) (hfiles : files.map (·.1) = r.outputs) (ht : WellFormed t)
    (hnames : StagingNames staging (outputRoots r)) :
    Ensures (declaredOutputs faults staging files r) (start t) fun result s => match result with
      | .ok _ => Restored files (outputRoots r) t s.tree ↔
          (∀ file ∈ files, (∃ declared ∈ r.outputPaths, declared.splitOnP (· == '/') <+: file.1.path) ∨
            ((locked t).bind fun u => nodeAt u file.1.path) = some (.file file.2 file.1.executable)) ∧
          ∀ root ∈ outputRoots r, faults (.cleanUp root) = false
      | .error (.replace _) => Unharmed (outputRoots r) t s.tree ↔
          ∀ root ∈ (outputRoots r).takeWhile (installs faults files t),
            faults (.lookOld root) = true → nodeAt t root = none
      | .error (.rollback _ _) => True
      | .error _ => Unharmed (outputRoots r) t s.tree := by
  obtain ⟨hroots, hartifacts⟩ := outputs_of_validateDeclaredRecord hvalid
  have hlayout := layout_of_valid hroots hnames
  rw [← hfiles] at hartifacts
  obtain ⟨hnodup, hpaths⟩ := validateArtifacts_eq_ok hartifacts
  rw [List.map_map] at hnodup
  have hpaths : ∀ file ∈ files, validateRelativePath file.1.fileName = .ok file.1.path := fun file hfile =>
    hpaths file.1 (List.mem_map_of_mem hfile)
  simp only [declaredOutputs, hroots]
  refine lock_spec (fun e u he hstate => ?_) fun u hlocked hstate => ?_
  · have hsame : Unharmed (outputRoots r) t u := fun root hroot => treeAt_of_under_state hlayout hroot hstate
    cases e with
    | refused | failed => exact hsame
    | replace | rollback => cases he
  have hstart : Staged staging files (outputRoots r) u (start u) :=
    ⟨fun path _ => .inl rfl, by simp [start], by simp [start], by simp [start], by simp [start], List.Pairwise.nil, rfl, rfl⟩
  rw [ensures_bind, ensures_tryCatch]
  refine ((stageRoots_spec hlayout hpaths hnodup rfl hstart).and (failsPlainly_forM failsPlainly_stageRoot _ _)).mono
    fun result v hv => ?_
  obtain ⟨hstaged, hplain⟩ := hv
  cases result with
  | error e =>
    have he := hplain e rfl
    obtain ⟨habove, hwithin⟩ := hstaged
    refine (dropAll_spec v).bind (fun _ _ h => by cases h.1) fun _ w hw => ?_
    have hsame : Unharmed (outputRoots r) t w.tree := by
      intro root hroot
      rw [← treeAt_of_under_state hlayout hroot hstate, ← habove.treeAt hlayout hwithin hroot]
      exact funext fun path => (hw.2 _).2 fun other ho hpre =>
        absurd hpre ((hlayout.stagingDir_apart (hwithin other ho) hroot).not_within (List.prefix_append _ _))
    cases e with
    | refused | failed => exact hsame
    | replace | rollback => cases he
  | ok =>
    obtain ⟨hstaged, hall⟩ := hstaged
    obtain ⟨hdistinct, hswapping⟩ := hstaged.swapping hall hlayout
    have hthere : ∀ root ∈ outputRoots r, treeAt v.tree root = treeAt t root := fun root hroot =>
      (hstaged.above.treeAt hlayout hstaged.within hroot).trans (treeAt_of_under_state hlayout hroot hstate)
    refine (swapRoots_spec hdistinct hstaged.swaps.2 hstaged.swaps.1 hswapping).bind (fun e w hw => ?_) fun _ w hw => ?_
    · cases e with
      | refused | failed => cases hw
      | rollback => trivial
      | replace cause =>
        obtain ⟨failed, hfailed, hinstalled, hundone⟩ := hw
        have hinstalled : failed.installed = (outputRoots r).takeWhile (installs faults files t) :=
          hinstalled.trans (takeWhile_congr fun root hroot => installs_congr (congrFun (hthere root hroot)))
        have hfound : ∀ root ∈ outputRoots r, decide (root ∈ failed.installed) = true →
            decide (root ∈ failed.saved) = finds faults t root := by
          intro root hroot hmem
          rw [Bool.eq_iff_iff, decide_eq_true_iff, ← finds_congr (congrFun (hthere root hroot))]
          exact hfailed.found root (of_decide_eq_true hmem)
        refine (unharmed_iff ht (fun root hroot => hthere root hroot ▸ hundone root hroot) hfound).trans ?_
        rw [hinstalled]
        constructor
        · intro hnone root hmem
          exact hnone root ((List.takeWhile_subset _) hmem) (decide_eq_true hmem)
        · intro hnone root _ hmem
          exact hnone root (of_decide_eq_true hmem)
    · obtain ⟨hfinal, hinstalled⟩ := hw
      refine (dropAll_spec w).mono fun result x hx => ?_
      obtain ⟨rfl, hdropped⟩ := hx
      rw [hfinal.staged] at hdropped
      have hiff := (hfinal.finished hstaged hall hdistinct hinstalled hdropped).restored_iff hlayout ht hstate hnodup
      simp only [exists_outputRoots_iff] at hiff
      rw [hlocked]
      exact hiff

/-! ## A record with one output -/

def aKey : Text := List.replicate 64 'a'

/-- A record that declares the directory `out`. -/
def recordOf (output : Text) : DeclaredActionRecord where
  protocol := PROTOCOL_VERSION
  key := aKey
  name := "build".toList
  createdMs := 0
  platform :=
    { rustc := "rustc 1.90.0".toList, cargo := "cargo 1.90.0".toList, os := "linux".toList, arch := "x86_64".toList,
      pathDigest := aKey, rustupHomeDigest := aKey, rustupToolchain := none, hostCc := none, hostLd := none, hostAr := none }
  command := ["rustc".toList]
  environment := []
  inputs := []
  outputPaths := ["out".toList]
  outputs := [{ fileName := output, digest := aKey, executable := true }]
  stdout := { digest := aKey, len := 0 }
  stderr := { digest := aKey, len := 0 }
  durationMs := 0
  executor := "local".toList

def filesOf (output : Text) : List (Artifact × List UInt8) := (recordOf output).outputs.map (·, [7])

theorem filesOf_outputs (output : Text) : (filesOf output).map (·.1) = (recordOf output).outputs := rfl

/-- A workspace with an older output. -/
def oldTree : Workspace :=
  [([], .directory), (["out".toList], .directory), (["out".toList, "a".toList], .file [1] false)]

def stagingName : Path → Text := fun _ => ".bellows-restore-4kq2Zc".toList

theorem oldTree_wellFormed : WellFormed oldTree := by
  intro path name hthere
  obtain ⟨entry, hentry, hpath⟩ := nodeAt_isSome_iff.1 (Option.isSome_iff_ne_none.2 hthere)
  simp only [oldTree, List.mem_cons, List.not_mem_nil, or_false] at hentry
  obtain rfl | rfl | rfl := hentry
  · exact absurd hpath.symm (by simp)
  · have hpath : [] ++ ["out".toList] = path ++ [name] := hpath
    obtain ⟨rfl, -⟩ := List.append_inj' hpath rfl
    rfl
  · have hpath : ["out".toList] ++ ["a".toList] = path ++ [name] := hpath
    obtain ⟨rfl, -⟩ := List.append_inj' hpath rfl
    rfl

theorem stagingName_names (output : Text) : StagingNames stagingName (outputRoots (recordOf output)) := by
  have hroots : outermost (["out".toList].map fun path => path.splitOnP (· == '/')) = [["out".toList]] := by decide +kernel
  have hfresh : ".bellows-restore-4kq2Zc".toList ∉ ["out".toList] := by decide
  unfold outputRoots recordOf
  rw [hroots]
  exact ⟨fun root _ => ⟨"4kq2Zc".toList, rfl⟩, fun root _ other ho => List.mem_singleton.1 ho ▸ hfresh⟩

/-- An output is replaced. -/
theorem declaredOutputs_restores_out : Restored (filesOf "out/a".toList) (outputRoots (recordOf "out/a".toList)) oldTree
    (outcome (declaredOutputs (fun _ => false) stagingName (filesOf "out/a".toList) (recordOf "out/a".toList))
      (start oldTree)).2.tree := by
  have hvalid : validateDeclaredRecord (fun _ _ _ _ _ _ => aKey) (recordOf "out/a".toList) = .ok () := by decide +kernel
  have hfiles := filesOf_outputs "out/a".toList
  have hnames := stagingName_names "out/a".toList
  have hcovered : ∀ file ∈ filesOf "out/a".toList, ∃ declared ∈ (recordOf "out/a".toList).outputPaths,
      declared.splitOnP (· == '/') <+: file.1.path := by decide +kernel
  have hok : (outcome (declaredOutputs (fun _ => false) stagingName (filesOf "out/a".toList) (recordOf "out/a".toList))
      (start oldTree)).1.isOk = true := by decide +kernel
  -- neither the record nor its files are to be computed with any more
  generalize recordOf "out/a".toList = r at hvalid hfiles hnames hcovered hok ⊢
  generalize filesOf "out/a".toList = files at hfiles hcovered hok ⊢
  have hends : Ensures (declaredOutputs (fun _ => false) stagingName files r) (start oldTree) _ :=
    declaredOutputs_restores hvalid hfiles oldTree_wellFormed hnames
  unfold Ensures at hends
  generalize outcome (declaredOutputs (fun _ => false) stagingName files r) (start oldTree) = ends at hends hok ⊢
  obtain ⟨result, s⟩ := ends
  cases result with
  | error e => cases hok
  | ok => exact hends.2 ⟨fun file hfile => .inl (hcovered file hfile), fun _ _ => rfl⟩

/-- A record from Windows passes the check: the output is under `out` by both
separators. There it is none of its components, and the restore empties `out`. -/
theorem declaredOutputs_loses_output : validateDeclaredRecord (fun _ _ _ _ _ _ => aKey) (recordOf "out\\a".toList) = .ok () ∧
    WellFormed oldTree ∧
    (outcome (declaredOutputs (fun _ => false) stagingName (filesOf "out\\a".toList) (recordOf "out\\a".toList))
      (start oldTree)).1.isOk = true ∧
    ¬ Restored (filesOf "out\\a".toList) (outputRoots (recordOf "out\\a".toList)) oldTree
      (outcome (declaredOutputs (fun _ => false) stagingName (filesOf "out\\a".toList) (recordOf "out\\a".toList))
        (start oldTree)).2.tree := by
  refine ⟨by decide +kernel, oldTree_wellFormed, by decide +kernel, fun hrestored => ?_⟩
  have hgone : nodeAt (outcome (declaredOutputs (fun _ => false) stagingName (filesOf "out\\a".toList)
      (recordOf "out\\a".toList)) (start oldTree)).2.tree ["out\\a".toList] = none := by decide +kernel
  obtain ⟨file, hfile, hpath⟩ : ∃ file ∈ filesOf "out\\a".toList, file.1.path = ["out\\a".toList] := by decide +kernel
  have hthere := hrestored.complete file hfile
  rw [hpath, hgone] at hthere
  cases hthere

end Bellows.Cli.Restore
