/-
The first half of a restore: every root is built beside its destination, and
nothing else changes but for directories that were missing above a root.
-/
import Bellows.Cli.Restore

namespace Bellows.Cli.Restore

open Text Trees Prog Bellows.Core

variable {faults : RestoreOp → Bool} {staging : Path → Text} {files : List (Artifact × List UInt8)}

/-! ## Operations -/

theorem outcome_perform_of_some {op : RestoreOp} {act : Workspace → Option Workspace} {s : Restoring} {tree : Workspace}
    (hfault : faults op = false) (hact : act s.tree = some tree) :
    outcome (perform faults op act) s = (.ok (), { s with tree := tree }) := by
  simp only [perform, outcome_bind, outcome_get, hfault, hact, Bool.false_eq_true, if_false, outcome_set]

theorem outcome_perform_of_none {op : RestoreOp} {act : Workspace → Option Workspace} {s : Restoring}
    (h : faults op = true ∨ act s.tree = none) : outcome (perform faults op act) s = (.error (.failed op), s) := by
  have hnone : (if faults op then none else act s.tree) = none := by
    obtain h | h := h <;> simp [h]
  simp only [perform, outcome_bind, outcome_get, hnone, outcome_throw]

theorem ensures_perform {op : RestoreOp} {act : Workspace → Option Workspace} {s : Restoring}
    {Q : Except RestoreError Unit → Restoring → Prop} (herror : Q (.error (.failed op)) s)
    (hok : ∀ tree, faults op = false → act s.tree = some tree → Q (.ok ()) { s with tree := tree }) :
    Ensures (perform faults op act) s Q := by
  unfold Ensures
  cases hfault : faults op with
  | true => rwa [outcome_perform_of_none (.inl hfault)]
  | false =>
    cases hact : act s.tree with
    | none => rwa [outcome_perform_of_none (.inr hact)]
    | some tree =>
      rw [outcome_perform_of_some hfault hact]
      exact hok tree hfault hact

/-- The swaps made so far are the same. -/
def SameSwaps (s t : Restoring) : Prop := t.saved = s.saved ∧ t.installed = s.installed

/-- Only what is under `dir` differs. -/
def Under (dir : Path) (t t' : Workspace) : Prop := ∀ path, ¬ dir <+: path → nodeAt t' path = nodeAt t path

/-- Only missing directories above `root` are there now. -/
def Grows (root : Path) (t t' : Workspace) : Prop := ∀ path, nodeAt t' path = nodeAt t path ∨
  nodeAt t path = none ∧ nodeAt t' path = some .directory ∧ path <+: root ∧ path ≠ root

theorem Grows.refl (root : Path) (t : Workspace) : Grows root t t := fun _ => .inl rfl

theorem Grows.trans {root : Path} {t u v : Workspace} (h : Grows root t u) (h' : Grows root u v) : Grows root t v := by
  intro path
  obtain heq | ⟨hnone, hdir, hpre⟩ := h path
  · rw [← heq]
    exact h' path
  · obtain heq' | ⟨hnone', -⟩ := h' path
    · exact .inr ⟨hnone, heq'.trans hdir, hpre⟩
    · rw [hdir] at hnone'
      cases hnone'

theorem Under.trans {dir : Path} {t u v : Workspace} (h : Under dir t u) (h' : Under dir u v) : Under dir t v :=
  fun path hpath => (h' path hpath).trans (h path hpath)

theorem under_put {dir path : Path} {t : Workspace} {node : Node} (h : dir <+: path) : Under dir t (put t path node) := by
  intro other hother
  have hne : path ≠ other := fun heq => hother (heq ▸ h)
  rw [nodeAt_put, if_neg hne]

/-! ## Above the destination -/

/-- A step above a destination, failed or not. -/
def Above (root : Path) (s t : Restoring) : Prop := Grows root s.tree t.tree ∧ SameSwaps s t ∧ t.staged = s.staged

theorem Above.refl (root : Path) (s : Restoring) : Above root s s := ⟨Grows.refl _ _, ⟨rfl, rfl⟩, rfl⟩

theorem Above.trans {root : Path} {s t u : Restoring} (h : Above root s t) (h' : Above root t u) : Above root s u :=
  ⟨h.1.trans h'.1, ⟨h'.2.1.1.trans h.2.1.1, h'.2.1.2.trans h.2.1.2⟩, h'.2.2.trans h.2.2⟩

theorem safeParent_spec {root path : Path} (hpath : path ∈ parents root) (s : Restoring) :
    Ensures (safeParent faults root path) s fun _ t => Above root s t := by
  obtain ⟨hpre, hne⟩ : path <+: root ∧ path ≠ root := by
    rw [parents, List.mem_filter, List.mem_inits] at hpath
    exact ⟨hpath.1, (of_decide_eq_true hpath.2).2⟩
  unfold safeParent
  rw [ensures_get_bind]
  split
  · refine ensures_perform (Above.refl _ _) fun tree _ htree => ⟨?_, ⟨rfl, rfl⟩, rfl⟩
    unfold mkdir at htree
    split at htree
    · next hmissing =>
      obtain rfl := Option.some.inj htree
      intro other
      rw [nodeAt_put]
      by_cases heq : path = other
      · subst heq
        exact .inr ⟨hmissing.1, if_pos rfl, hpre, hne⟩
      · exact .inl (if_neg heq)
    · cases htree
  · refine (ensures_perform (Q := fun _ t => Above root s t) (Above.refl _ _) fun tree _ htree => ?_).bind (fun _ _ h => h)
      fun _ t h => ?_
    · obtain rfl := Option.some.inj htree
      exact Above.refl _ _
    · split
      · exact h
      · exact h

theorem safeDestination_spec (root : Path) (s : Restoring) :
    Ensures (safeDestination faults root) s fun _ t => Above root s t := by
  have hloop : Ensures ((parents root).forM (safeParent faults root)) s fun _ t => Above root s t :=
    ensures_forM_keeps _ (Above.refl _ _) fun path hpath t ht => (safeParent_spec hpath t).mono fun _ u hu => ht.trans hu
  refine hloop.bind (fun _ _ h => h) fun _ t h => ?_
  rw [ensures_get_bind]
  split
  · exact h
  · exact h

/-! ## What is built -/

/-- What files put under a root, and a directory there if `directory` says so. -/
def content (files : List (Artifact × List UInt8)) (root : Path) (directory : Bool) (path : Path) : Option Node :=
  match files.find? (·.1.path = root ++ path) with
  | some file => some (.file file.2 file.1.executable)
  | none =>
    if path = [] ∧ directory = true ∨ ∃ file ∈ files, root ++ path <+: file.1.path then some .directory else none

/-- A staging directory with `new` in it. -/
def stagedTree (new : Path → Option Node) : Path → Option Node
  | [] => some .directory
  | name :: path => if name = "new".toList then new path else none

/-- A root's tree as the record has it. -/
def expected (files : List (Artifact × List UInt8)) (root path : Path) : Option Node :=
  content files root (!isFile files root) path

/-- The staging directory of a root has what the files so far put there. -/
def Holds (staging : Path → Text) (root : Path) (new : Path → Option Node) (t : Workspace) : Prop :=
  ∀ path, nodeAt t (stagingDir staging root ++ path) = stagedTree new path

theorem ensureDirs_spec {names : List Text} : ∀ {base : Path} {t t' : Workspace}, ensureDirs base t names = some t' →
    (∀ path, path ≠ [] → path <+: names → nodeAt t' (base ++ path) = some .directory ∧
      (nodeAt t (base ++ path) = none ∨ nodeAt t (base ++ path) = some .directory)) ∧
    ∀ path, (∀ rest, rest ≠ [] → rest <+: names → path ≠ base ++ rest) → nodeAt t' path = nodeAt t path := by
  induction names with
  | nil =>
    intro base t t' h
    obtain rfl := Option.some.inj h
    refine ⟨fun path hne hpath => absurd (List.prefix_nil.1 hpath) hne, fun _ _ => rfl⟩
  | cons name names ih =>
    intro base t t' h
    -- the first directory, and the tree with it
    obtain ⟨u, hu, hfirst, hold, hothers⟩ : ∃ u, ensureDirs (base ++ [name]) u names = some t' ∧
        nodeAt u (base ++ [name]) = some .directory ∧
        (nodeAt t (base ++ [name]) = none ∨ nodeAt t (base ++ [name]) = some .directory) ∧
        ∀ path, path ≠ base ++ [name] → nodeAt u path = nodeAt t path := by
      unfold ensureDirs at h
      split at h
      · next hdir => exact ⟨t, h, hdir, .inr hdir, fun _ _ => rfl⟩
      · next hnone =>
        refine ⟨_, h, by rw [nodeAt_put, if_pos rfl], .inl hnone, fun path hpath => ?_⟩
        rw [nodeAt_put, if_neg (Ne.symm hpath)]
      · cases h
    obtain ⟨hdirs, hrest⟩ := ih hu
    constructor
    · intro path hne hpath
      cases path with
      | nil => exact absurd rfl hne
      | cons other path =>
        obtain ⟨rfl, hbelow⟩ := List.cons_prefix_cons.1 hpath
        have happend : base ++ other :: path = base ++ [other] ++ path := by simp
        by_cases hnil : path = []
        · subst hnil
          rw [hrest (base ++ [other]) fun rest hne' _ heq => hne' (by simpa using heq)]
          exact ⟨hfirst, hold⟩
        · obtain ⟨hdir, hwas⟩ := hdirs path hnil hbelow
          rw [happend]
          rw [hothers _ (by simpa using hnil)] at hwas
          exact ⟨hdir, hwas⟩
    · intro path hpath
      rw [hrest path fun rest hne hpre heq => ?_, hothers path ?_]
      · exact hpath [name] (List.cons_ne_nil _ _) (List.cons_prefix_cons.2 ⟨rfl, List.nil_prefix⟩)
      · exact hpath (name :: rest) (List.cons_ne_nil _ _) (List.cons_prefix_cons.2 ⟨rfl, hpre⟩) (by rw [heq]; simp)

/-! ## One file -/

theorem prefix_dropLast_iff {α : Type} {l path : List α} (hl : l ≠ []) :
    path <+: l.dropLast ↔ path <+: l ∧ path ≠ l := by
  obtain ⟨init, last, rfl⟩ := (List.eq_nil_or_concat' l).resolve_left hl
  rw [List.dropLast_concat, List.prefix_concat_iff]
  constructor
  · intro h
    refine ⟨.inr h, fun heq => ?_⟩
    have hlength := h.length_le
    rw [heq, List.length_append, List.length_singleton] at hlength
    omega
  · intro h
    exact h.1.resolve_left h.2

section Content

variable {done : List (Artifact × List UInt8)} {root relative path : Path} {file : Artifact × List UInt8} {directory : Bool}

theorem content_append_of_not_prefix (h : ¬ root <+: file.1.path) :
    content (done ++ [file]) root directory path = content done root directory path := by
  have hne : file.1.path ≠ root ++ path := fun heq => h (heq ▸ List.prefix_append _ _)
  have hno : ¬ root ++ path <+: file.1.path := fun hp => h ((List.prefix_append _ _).trans hp)
  have hfind : (done ++ [file]).find? (·.1.path = root ++ path) = done.find? (·.1.path = root ++ path) := by
    rw [List.find?_append]
    simp [hne]
  have hunder : (∃ other ∈ done ++ [file], root ++ path <+: other.1.path) ↔ ∃ other ∈ done, root ++ path <+: other.1.path := by
    simp only [List.mem_append, List.mem_singleton, or_and_right, exists_or, exists_eq_left, hno, or_false]
  simp only [content, hfind, hunder]

theorem content_append_self (hfile : file.1.path = root ++ relative) (hnew : ∀ other ∈ done, other.1.path ≠ file.1.path) :
    content (done ++ [file]) root directory relative = some (.file file.2 file.1.executable) := by
  have hnone : done.find? (·.1.path = root ++ relative) = none :=
    List.find?_eq_none.2 fun other ho => by simpa [← hfile] using hnew other ho
  unfold content
  rw [List.find?_append, hnone]
  simp [hfile]

theorem content_append_other (hfile : file.1.path = root ++ relative) (hpath : path ≠ relative) :
    content (done ++ [file]) root directory path =
      (content done root directory path).or (if path <+: relative then some .directory else none) := by
  have hne : file.1.path ≠ root ++ path := by simpa [hfile] using Ne.symm hpath
  have hfind : (done ++ [file]).find? (·.1.path = root ++ path) = done.find? (·.1.path = root ++ path) := by
    rw [List.find?_append]
    simp [hne]
  have hunder : (∃ other ∈ done ++ [file], root ++ path <+: other.1.path) ↔
      (∃ other ∈ done, root ++ path <+: other.1.path) ∨ path <+: relative := by
    simp only [List.mem_append, List.mem_singleton, or_and_right, exists_or, exists_eq_left, hfile,
      List.prefix_append_right_inj]
  simp only [content, hfind, hunder]
  cases done.find? (·.1.path = root ++ path) with
  | some other => rfl
  | none =>
    by_cases hwas : path = [] ∧ directory = true ∨ ∃ other ∈ done, root ++ path <+: other.1.path
    · simp only [← or_assoc, if_pos hwas, if_pos (Or.inl hwas)]
      rfl
    · simp only [← or_assoc, if_neg hwas, or_iff_right hwas, Option.none_or]

/-- Before a file is put there, there is none. -/
theorem content_new (hfile : file.1.path = root ++ relative) (hnew : ∀ other ∈ done, other.1.path ≠ file.1.path) :
    content done root directory relative = none ∨ content done root directory relative = some .directory := by
  have hnone : done.find? (·.1.path = root ++ relative) = none :=
    List.find?_eq_none.2 fun other ho => by simpa [← hfile] using hnew other ho
  simp only [content, hnone]
  exact (ite_eq_or_eq _ _ _).symm

end Content

/-- A step in a staging directory, failed or not. -/
def Inside (staging : Path → Text) (root : Path) (s t : Restoring) : Prop :=
  Under (stagingDir staging root) s.tree t.tree ∧ SameSwaps s t ∧ t.staged = s.staged

theorem Inside.refl (root : Path) (s : Restoring) : Inside staging root s s := ⟨fun _ _ => rfl, ⟨rfl, rfl⟩, rfl⟩

theorem Inside.trans {root : Path} {s t u : Restoring} (h : Inside staging root s t) (h' : Inside staging root t u) :
    Inside staging root s u :=
  ⟨h.1.trans h'.1, ⟨h'.2.1.1.trans h.2.1.1, h'.2.1.2.trans h.2.1.2⟩, h'.2.2.trans h.2.2⟩

theorem prefix_target (staging : Path → Text) (root relative : Path) :
    stagingDir staging root <+: freshPath staging root ++ relative :=
  (List.prefix_append _ _).trans (List.prefix_append _ _)

/-- Where there is no file yet, the new one is put, or the rename fails. -/
theorem replaceFile_spec {root path target : Path} {bytes : List UInt8} {s : Restoring}
    (hunder : stagingDir staging root <+: target)
    (hnew : nodeAt s.tree target = none ∨ nodeAt s.tree target = some .directory) :
    Ensures (replaceFile faults root path target bytes) s fun r t => Inside staging root s t ∧
      (r = .ok () → t.tree = put s.tree target (.file bytes false)) := by
  have hput : Inside staging root s { s with tree := put s.tree target (.file bytes false) } :=
    ⟨under_put hunder, ⟨rfl, rfl⟩, rfl⟩
  unfold replaceFile
  rw [ensures_get_bind]
  split
  · obtain hnone | hdir := hnew
    · rw [hnone]
      exact ⟨Inside.refl _ _, by simp [outcome_throw]⟩
    · rw [hdir]
      exact ⟨Inside.refl _ _, by simp [outcome_throw]⟩
  · rw [ensures_set_bind]
    refine ensures_perform ⟨hput, by simp⟩ fun tree _ htree => ?_
    obtain rfl := Option.some.inj htree
    exact ⟨hput, fun _ => rfl⟩

/-- What the directories above a file and the file itself make of what was
there. -/
theorem holds_step {root relative : Path} {done : List (Artifact × List UInt8)} {file : Artifact × List UInt8}
    {directory : Bool} {t u v : Workspace} (hfile : file.1.path = root ++ relative)
    (hnew : ∀ other ∈ done, other.1.path ≠ file.1.path) (hholds : Holds staging root (content done root directory) t)
    (hdirs : ensureDirs (stagingDir staging root) t ("new".toList :: relative).dropLast = some u)
    (htarget : nodeAt v (freshPath staging root ++ relative) = some (.file file.2 file.1.executable))
    (hothers : ∀ path, path ≠ freshPath staging root ++ relative → nodeAt v path = nodeAt u path) :
    Holds staging root (content (done ++ [file]) root directory) v := by
  obtain ⟨hmade, hkept⟩ := ensureDirs_spec hdirs
  have hpre : ∀ {path : Path}, path <+: ("new".toList :: relative).dropLast ↔
      path <+: "new".toList :: relative ∧ path ≠ "new".toList :: relative := prefix_dropLast_iff (List.cons_ne_nil _ _)
  have hfresh : ∀ path, freshPath staging root ++ path = stagingDir staging root ++ "new".toList :: path := by
    intro path
    rw [freshPath, List.append_assoc, List.singleton_append]
  -- what is not a directory above the file is as it was
  have hkeep : ∀ path, path ≠ "new".toList :: relative → ¬ (path ≠ [] ∧ path <+: "new".toList :: relative) →
      nodeAt v (stagingDir staging root ++ path) = nodeAt t (stagingDir staging root ++ path) := by
    intro path hne hno
    rw [hothers _ (by rw [hfresh]; simpa using hne), hkept _ fun rest hnil hrest heq => ?_]
    obtain rfl := List.append_cancel_left heq
    exact hno ⟨hnil, (hpre.1 hrest).1⟩
  intro path
  cases path with
  | nil => rw [hkeep [] (by simp) (by simp), hholds]; rfl
  | cons name path =>
    by_cases hname : name = "new".toList
    · subst hname
      simp only [stagedTree, if_true]
      by_cases heq : path = relative
      · subst heq
        rw [← hfresh, htarget, content_append_self hfile hnew]
      · have hwas := hholds ("new".toList :: path)
        simp only [stagedTree, if_true] at hwas
        rw [content_append_other hfile heq]
        by_cases hbelow : path <+: relative
        · have hcons : "new".toList :: path <+: "new".toList :: relative := List.cons_prefix_cons.2 ⟨rfl, hbelow⟩
          obtain ⟨hdir, hold⟩ := hmade _ (List.cons_ne_nil _ _) (hpre.2 ⟨hcons, by simpa using heq⟩)
          rw [hothers _ (by rw [hfresh]; simpa using heq), hdir, if_pos hbelow]
          rw [hwas] at hold
          obtain hold | hold := hold <;> rw [hold] <;> rfl
        · rw [hkeep _ (by simpa using heq) (by simpa [List.cons_prefix_cons] using hbelow), hwas, if_neg hbelow,
            Option.or_none]
    · have hno : ¬ name :: path <+: "new".toList :: relative := fun h => hname (List.cons_prefix_cons.1 h).1
      rw [hkeep _ (fun h => hname (List.cons.inj h).1) fun h => hno h.2, hholds]
      simp only [stagedTree, if_neg hname]

theorem stageFile_spec {root : Path} {done : List (Artifact × List UInt8)} {file : Artifact × List UInt8}
    {directory : Bool} {s : Restoring} (hvalid : validateRelativePath file.1.fileName = .ok file.1.path)
    (hnew : ∀ other ∈ done, other.1.path ≠ file.1.path) (hholds : Holds staging root (content done root directory) s.tree) :
    Ensures (stageFile faults staging root file) s fun r t => Inside staging root s t ∧
      (r = .ok () → Holds staging root (content (done ++ [file]) root directory) t.tree) := by
  unfold stageFile
  cases hstrip : stripPrefix? root file.1.path with
  | none =>
    simp only [hvalid, hstrip]
    refine ⟨Inside.refl _ _, fun _ path => ?_⟩
    have hsame : content (done ++ [file]) root directory = content done root directory :=
      funext fun path => content_append_of_not_prefix (stripPrefix?_eq_none.1 hstrip)
    rw [hsame]
    exact hholds path
  | some relative =>
    simp only [hvalid, hstrip]
    have hfile : file.1.path = root ++ relative := stripPrefix?_eq_some.1 hstrip
    have hunder := prefix_target staging root relative
    -- the directories above the file
    refine (ensures_perform (Q := fun r t => Inside staging root s t ∧
      (r = .ok () → ensureDirs (stagingDir staging root) s.tree ("new".toList :: relative).dropLast = some t.tree))
      ⟨Inside.refl _ _, by simp⟩ fun tree _ htree => ⟨⟨fun path hpath => ?_, ⟨rfl, rfl⟩, rfl⟩, fun _ => htree⟩).bind
      (fun _ _ h => ⟨h.1, by simp⟩) fun _ t ht => ?_
    · exact (ensureDirs_spec htree).2 path fun rest _ _ heq => hpath (heq ▸ List.prefix_append _ _)
    obtain ⟨hinside, hdirs⟩ := ht
    have hdirs := hdirs rfl
    have hfree : nodeAt t.tree (freshPath staging root ++ relative) = none ∨
        nodeAt t.tree (freshPath staging root ++ relative) = some .directory := by
      have htarget : freshPath staging root ++ relative = stagingDir staging root ++ "new".toList :: relative := by
        rw [freshPath, List.append_assoc, List.singleton_append]
      rw [htarget, (ensureDirs_spec hdirs).2 _ fun rest _ hrest heq => ?_, hholds]
      · exact content_new hfile hnew
      · rw [← List.append_cancel_left heq] at hrest
        exact ((prefix_dropLast_iff (List.cons_ne_nil _ _)).1 hrest).2 rfl
    -- the file
    refine (ensures_perform (Q := fun _ u => u = t) rfl fun tree _ htree => ?_).bind
      (fun _ _ h => ⟨h ▸ hinside, by simp⟩) fun _ _ h => ?_
    · obtain rfl := Option.some.inj htree
      rfl
    subst h
    refine (replaceFile_spec hunder hfree).bind (fun _ _ h => ⟨hinside.trans h.1, by simp⟩) fun _ u hu => ?_
    obtain ⟨hinside', hput⟩ := hu
    have hput := hput rfl
    split
    · next hexecutable =>
      refine ensures_perform ⟨hinside.trans hinside', by simp⟩ fun tree _ htree => ?_
      rw [setExecutable, hput, nodeAt_put, if_pos rfl] at htree
      obtain rfl := Option.some.inj htree
      refine ⟨(hinside.trans hinside').trans ⟨?_, ⟨rfl, rfl⟩, rfl⟩, fun _ => ?_⟩
      · rw [← hput]
        exact under_put hunder
      · refine holds_step hfile hnew hholds hdirs ?_ fun path hpath => ?_
        · rw [nodeAt_put, if_pos rfl, hexecutable]
        · rw [nodeAt_put, if_neg (Ne.symm hpath), nodeAt_put, if_neg (Ne.symm hpath)]
    · next hplain =>
      refine ⟨hinside.trans hinside', fun _ => holds_step hfile hnew hholds hdirs ?_ fun path hpath => ?_⟩
      · rw [outcome_pure, hput, nodeAt_put, if_pos rfl, Bool.eq_false_iff.2 hplain]
      · rw [outcome_pure, hput, nodeAt_put, if_neg (Ne.symm hpath)]

/-! ## One root -/

theorem stageFiles_spec {root : Path} {directory : Bool} : ∀ {rest : List (Artifact × List UInt8)}
    (done : List (Artifact × List UInt8)) {s : Restoring},
    (∀ file ∈ rest, validateRelativePath file.1.fileName = .ok file.1.path) →
    ((done ++ rest).map (·.1.path)).Nodup → Holds staging root (content done root directory) s.tree →
    Ensures (rest.forM (stageFile faults staging root)) s fun r t => Inside staging root s t ∧
      (r = .ok () → Holds staging root (content (done ++ rest) root directory) t.tree)
  | [], done, s, _, _, hholds => ⟨Inside.refl _ _, fun _ => by rw [List.append_nil]; exact hholds⟩
  | file :: rest, done, s, hvalid, hnodup, hholds => by
    obtain ⟨hfile, hvalid⟩ := List.forall_mem_cons.1 hvalid
    have hnew : ∀ other ∈ done, other.1.path ≠ file.1.path := fun other ho heq => by
      rw [List.map_append, List.nodup_append] at hnodup
      exact hnodup.2.2 _ (List.mem_map_of_mem ho) _ (List.mem_map_of_mem List.mem_cons_self) heq
    have happend : done ++ file :: rest = done ++ [file] ++ rest := by simp
    rw [happend] at hnodup
    refine (stageFile_spec hfile hnew hholds).bind (fun _ _ h => ⟨h.1, by simp⟩) fun _ t h => ?_
    refine (stageFiles_spec _ hvalid hnodup (h.2 rfl)).mono fun r u hu => ⟨h.1.trans hu.1, fun hr => ?_⟩
    rw [happend]
    exact hu.2 hr

/-- A root's round: directories above it, and then what is in its staging
directory; `u` is the tree between the two. -/
theorem stageRoot_spec {root : Path} (s : Restoring)
    (hvalid : ∀ file ∈ files, validateRelativePath file.1.fileName = .ok file.1.path)
    (hnodup : (files.map (·.1.path)).Nodup) :
    Ensures (stageRoot faults staging files root) s fun r t => ∃ u, Grows root s.tree u ∧ SameSwaps s t ∧
      (t.tree = u ∧ t.staged = s.staged ∧ r ≠ .ok () ∨
        nodeAt u (stagingDir staging root) = none ∧ nodeAt u root.dropLast = some .directory ∧
          Under (stagingDir staging root) u t.tree ∧ t.staged = s.staged ++ [root] ∧
          (r = .ok () → Holds staging root (expected files root) t.tree)) := by
  unfold stageRoot
  refine (safeDestination_spec root s).bind (fun e t h => ⟨t.tree, h.1, h.2.1, .inl ⟨rfl, h.2.2, by simp⟩⟩) fun _ t h => ?_
  obtain ⟨hgrows, hswaps, hstaged⟩ := h
  refine (ensures_perform (Q := fun r u => SameSwaps t u ∧ u.staged = t.staged ∧
    match r with
    | .ok _ => createStaging staging root t.tree = some u.tree
    | .error _ => u = t) ⟨⟨rfl, rfl⟩, rfl, rfl⟩ fun tree _ htree => ⟨⟨rfl, rfl⟩, rfl, htree⟩).bind
    (fun e u h => ⟨t.tree, hgrows, ?_, .inl ⟨by rw [h.2.2], h.2.1.trans hstaged, by simp⟩⟩) fun _ u h => ?_
  · exact ⟨h.1.1.trans hswaps.1, h.1.2.trans hswaps.2⟩
  obtain ⟨hswaps', hstaged', hmade⟩ := h
  have hcreate : createStaging staging root t.tree = some u.tree := hmade
  unfold createStaging at hcreate
  split at hcreate
  case isFalse => cases hcreate
  next hmissing =>
  have htree := Option.some.inj hcreate
  rw [ensures_modify_bind]
  -- what follows stays in the staging directory
  suffices hrest : Ensures (do
      if isFile files root = false then perform faults (.createFresh root) (mkdir (freshPath staging root))
      files.forM (stageFile faults staging root)) { u with staged := u.staged ++ [root] } fun r v =>
      Inside staging root { u with staged := u.staged ++ [root] } v ∧
        (r = .ok () → Holds staging root (expected files root) v.tree) by
    refine hrest.mono fun r v hv => ⟨t.tree, hgrows, ?_, .inr ⟨hmissing.1, hmissing.2, ?_, ?_, hv.2⟩⟩
    · exact ⟨(hv.1.2.1.1.trans hswaps'.1).trans hswaps.1, (hv.1.2.1.2.trans hswaps'.2).trans hswaps.2⟩
    · refine Under.trans (fun path hpath => ?_) hv.1.1
      rw [← htree]
      exact nodeAt_graft_of_not_prefix hpath
    · rw [hv.1.2.2, hstaged', hstaged]
  have hempty : Holds staging root (content [] root false) u.tree := by
    intro path
    rw [← htree, nodeAt_graft_under, nodeAt_cons, nodeAt_nil]
    cases path with
    | nil => rfl
    | cons name path => simp [stagedTree, content]
  have hfiles : ∀ (directory : Bool) (v : Restoring), directory = !isFile files root →
      Inside staging root { u with staged := u.staged ++ [root] } v →
      Holds staging root (content [] root directory) v.tree →
      Ensures (files.forM (stageFile faults staging root)) v fun r w =>
        Inside staging root { u with staged := u.staged ++ [root] } w ∧
          (r = .ok () → Holds staging root (expected files root) w.tree) := by
    intro directory v hdirectory hinside hholds
    refine (stageFiles_spec [] hvalid (by rwa [List.nil_append]) hholds).mono fun r w hw =>
      ⟨hinside.trans hw.1, fun hr => ?_⟩
    have hthen := hw.2 hr
    rw [List.nil_append, hdirectory] at hthen
    exact hthen
  cases hisFile : isFile files root with
  | true =>
    simp only [Bool.true_eq_false, if_false]
    exact hfiles false _ (by rw [hisFile]; rfl) (Inside.refl _ _) hempty
  | false =>
    simp only [if_true]
    refine (ensures_perform (Q := fun r v => Inside staging root { u with staged := u.staged ++ [root] } v ∧
      (r = .ok () → Holds staging root (content [] root true) v.tree)) ⟨Inside.refl _ _, by simp⟩
      fun tree _ hmkdir => ?_).bind (fun _ _ h => ⟨h.1, by simp⟩) fun _ v hv =>
        hfiles true v (by rw [hisFile]; rfl) hv.1 (hv.2 rfl)
    unfold mkdir at hmkdir
    split at hmkdir
    case isFalse => cases hmkdir
    obtain rfl := Option.some.inj hmkdir
    refine ⟨⟨under_put (List.prefix_append _ _), ⟨rfl, rfl⟩, rfl⟩, fun _ path => ?_⟩
    rw [nodeAt_put, hempty]
    cases path with
    | nil => simp [freshPath, stagedTree]
    | cons name path =>
      simp only [freshPath, List.append_cancel_left_eq, List.cons.injEq, stagedTree]
      by_cases hname : name = "new".toList
      · by_cases hnil : path = [] <;> simp [content, hname, hnil]
      · rw [if_neg fun h => hname h.1.symm, if_neg hname, if_neg hname]

end Bellows.Cli.Restore
