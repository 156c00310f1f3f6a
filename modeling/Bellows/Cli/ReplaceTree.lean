/-
How a restore replaces the content of OUT_DIR: what is cleared and what is kept,
that the files can be written where nothing is in their way, and what is there
once they are, place by place.
-/
import Bellows.Cli.ScriptTreeFacts

namespace Bellows.Cli.ScriptTree

open Text Trees Links Checked Bellows.Core

variable {d d' : Disk} {outDir base dir path rest : Path} {name : FileName} {nodeAt : Path → Option Node} {node : Node}

/-! ## One operation -/

theorem put?_eq_some (h : d.put? path node = some d') : d.nodeAt path ≠ some .directory ∧
    ∀ other, d'.nodeAt other = if path = other then some node else d.nodeAt other := by
  unfold Disk.put? at h
  split at h
  · next hfree =>
    obtain rfl := Option.some.inj h
    exact ⟨hfree.2, fun other => nodeAt_put other⟩
  · cases h

theorem exists_put? (hdir : d.nodeAt path.dropLast = some .directory) (hfree : d.nodeAt path ≠ some .directory)
    (node : Node) : ∃ d', d.put? path node = some d' := by
  rw [Disk.put?, dif_pos ⟨hdir, hfree⟩]
  exact ⟨_, rfl⟩

theorem createDir_eq_some (h : d.createDir path = some d') : d.nodeAt path = none ∧
    ∀ other, d'.nodeAt other = if path = other then some .directory else d.nodeAt other := by
  unfold Disk.createDir at h
  split at h
  · next hnone => exact ⟨hnone, (put?_eq_some h).2⟩
  · cases h

theorem exists_createDir (hdir : d.nodeAt base = some .directory) (hnone : d.nodeAt (base ++ [name]) = none) :
    ∃ d', d.createDir (base ++ [name]) = some d' := by
  rw [Disk.createDir, if_pos hnone]
  refine exists_put? ?_ (by simp [hnone]) _
  rw [List.dropLast_concat]
  exact hdir

theorem nodeAt_remove (hpath : path ≠ []) (other : Path) :
    (d.remove path).nodeAt other = if path <+: other then none else d.nodeAt other := by
  unfold Disk.remove
  rw [dif_pos hpath]
  exact nodeAt_prune other

/-! ## Cache directories -/

/-- A directory, and all that lead to it. -/
def Reached (nodeAt : Path → Option Node) (dir : Path) : Prop := ∀ prior, prior <+: dir → nodeAt prior = some .directory

theorem Disk.reached (h : d.nodeAt dir = some .directory) : Reached d.nodeAt dir :=
  fun _ hprior => Disk.directory_of_prefix h hprior

theorem followed_name (hdir : Reached nodeAt dir) (hnode : nodeAt (dir ++ [name]) = some node)
    (hlink : node.isSymlink = false) : followed nodeAt (dir ++ [name]) = some node := by
  have hdirs : ∀ prior, prior <+: dir → (nodeAt prior).map kindOf = some .directory := fun prior hprior => by
    rw [hdir prior hprior]
    rfl
  have hkind : ∀ target, kindOf node ≠ .link target := by
    intro target hkind
    cases node <;> simp [kindOf, Node.isSymlink] at hkind hlink
  rw [followed, resolve_name hdirs (by rw [hnode]; rfl) hkind]
  exact hnode

theorem followed_missing (hdir : Reached nodeAt dir) (hnode : nodeAt (dir ++ [name]) = none) :
    followed nodeAt (dir ++ [name]) = none := by
  rw [followed, resolve_missing (fun prior hprior => by simp [hdir prior hprior, kindOf]) (by simp [hnode])]
  rfl

/-- A regular file is a tag. -/
theorem isCacheDirectory_of_isFile (hdir : Reached nodeAt dir) (hnode : nodeAt (dir ++ [CACHEDIR_TAG]) = some node)
    (hfile : node.isFile = true) : isCacheDirectory nodeAt dir = true := by
  have hlink : node.isSymlink = false := by cases node <;> simp [Node.isFile, Node.isSymlink] at hfile ⊢
  rw [isCacheDirectory, followed_name hdir hnode hlink]
  exact hfile

/-- There is a file or a link that may be a directory's tag. -/
def Tagged (nodeAt : Path → Option Node) (dir : Path) : Prop :=
  ∃ node, nodeAt (dir ++ [CACHEDIR_TAG]) = some node ∧ (node.isFile = true ∨ node.isSymlink = true)

theorem tagged_of_isCacheDirectory (hdir : Reached nodeAt dir) (h : isCacheDirectory nodeAt dir = true) : Tagged nodeAt dir := by
  unfold isCacheDirectory at h
  cases hnode : nodeAt (dir ++ [CACHEDIR_TAG]) with
  | none =>
    rw [followed_missing hdir hnode] at h
    cases h
  | some node =>
    refine ⟨node, hnode, ?_⟩
    cases hlink : node.isSymlink with
    | true => exact .inr rfl
    | false =>
      rw [followed_name hdir hnode hlink] at h
      exact .inl h

/-! ## The earlier content -/

/-- What is at which path once some entries of OUT_DIR are gone. -/
def without (outDir : Path) (nodeAt : Path → Option Node) (gone : List FileName) (place : Path) : Option Node :=
  match stripPrefix? outDir place with
  | some (name :: _) => if name ∈ gone then none else nodeAt place
  | _ => nodeAt place

/-- Of the entries in the order they are read, those that go: all but each
directory whose tag still leads to a regular file when its turn comes. -/
def going (outDir : Path) (nodeAt : Path → Option Node) : List FileName → List FileName → List FileName
  | [], gone => gone
  | name :: names, gone =>
    if nodeAt (outDir ++ [name]) = some .directory ∧ isCacheDirectory (without outDir nodeAt gone) (outDir ++ [name]) then
      going outDir nodeAt names gone
    else going outDir nodeAt names (name :: gone)

/-- An entry of the earlier content that is kept. -/
def Kept (outDir : Path) (d : Disk) (name : FileName) : Prop :=
  name ∈ children d.tree outDir ∧ name ∉ going outDir d.nodeAt (children d.tree outDir) []

instance (outDir : Path) (d : Disk) (name : FileName) : Decidable (Kept outDir d name) := by
  unfold Kept
  infer_instance

theorem without_entry (gone : List FileName) : without outDir nodeAt gone (outDir ++ name :: rest) =
    if name ∈ gone then none else nodeAt (outDir ++ name :: rest) := by
  rw [without, stripPrefix?_append]

theorem without_other (gone : List FileName) (h : ∀ name rest, path ≠ outDir ++ name :: rest) :
    without outDir nodeAt gone path = nodeAt path := by
  unfold without
  split
  · next name rest hstrip => exact absurd (stripPrefix?_eq_some.1 hstrip) (h name rest)
  · rfl

/-- A place is below an entry, or no entry has to do with it. -/
theorem entry_or (outDir path : Path) :
    (∃ name rest, path = outDir ++ name :: rest) ∨ ∀ name rest, path ≠ outDir ++ name :: rest := by
  by_cases h : ∃ name rest, path = outDir ++ name :: rest
  · exact .inl h
  · push Not at h
    exact .inr h

/-- What is above the entries is none. -/
theorem not_entry (h : path <+: outDir) (name : FileName) (rest : Path) : path ≠ outDir ++ name :: rest := by
  rintro rfl
  have hlength := h.length_le
  simp at hlength

/-- An entry more is gone. -/
theorem nodeAt_remove_entry {gone : List FileName} (hd : d.nodeAt = without outDir nodeAt gone) :
    (d.remove (outDir ++ [name])).nodeAt = without outDir nodeAt (name :: gone) := by
  funext place
  rw [nodeAt_remove (by simp), hd]
  rcases entry_or outDir place with ⟨other, rest, rfl⟩ | hnone
  · have hunder : outDir ++ [name] <+: outDir ++ other :: rest ↔ other = name := by
      rw [List.prefix_append_right_inj, List.cons_prefix_cons]
      exact ⟨fun h => h.1.symm, fun h => ⟨h.symm, List.nil_prefix⟩⟩
    simp only [without_entry, hunder, List.mem_cons]
    by_cases hname : other = name <;> simp [hname]
  · rw [without_other _ hnone, without_other _ hnone, if_neg]
    rintro ⟨rest, hrest⟩
    exact hnone name rest (by rw [← hrest, List.append_assoc, List.singleton_append])

theorem nodeAt_foldl_clearEntry {names gone : List FileName} (hnodup : names.Nodup)
    (hapart : ∀ name ∈ names, name ∉ gone) (hd : d.nodeAt = without outDir nodeAt gone) :
    (names.foldl (clearEntry outDir) d).nodeAt = without outDir nodeAt (going outDir nodeAt names gone) := by
  induction names generalizing gone d with
  | nil => exact hd
  | cons name names ih =>
    obtain ⟨hfirst, hnodup⟩ := List.nodup_cons.1 hnodup
    obtain ⟨hname, hnames⟩ := List.forall_mem_cons.1 hapart
    have hentry : d.nodeAt (outDir ++ [name]) = nodeAt (outDir ++ [name]) := by
      rw [hd, without_entry, if_neg hname]
    rw [List.foldl_cons, clearEntry, going, hentry, hd]
    split
    · exact ih hnodup hnames hd
    · refine ih hnodup (fun other hother hin => ?_) (nodeAt_remove_entry hd)
      rcases List.mem_cons.1 hin with rfl | hin
      · exact hfirst hother
      · exact hnames other hother hin

/-- **Clearing takes away the entries that go**, and nothing else. -/
theorem nodeAt_clearTree (outDir : Path) (d : Disk) :
    (clearTree outDir d).nodeAt = without outDir d.nodeAt (going outDir d.nodeAt (children d.tree outDir) []) := by
  refine nodeAt_foldl_clearEntry nodup_children (fun _ _ => List.not_mem_nil) ?_
  funext place
  rcases entry_or outDir place with ⟨other, rest, rfl⟩ | hnone
  · rw [without_entry, if_neg List.not_mem_nil]
  · rw [without_other _ hnone]

/-! ### What is kept -/

theorem subset_going (names gone : List FileName) : gone ⊆ going outDir nodeAt names gone := by
  induction names generalizing gone with
  | nil => exact List.Subset.refl _
  | cons name names ih =>
    rw [going]
    split
    · exact ih gone
    · exact List.Subset.trans (List.subset_cons_self name gone) (ih _)

/-- What does not go is a cache directory when its turn comes. -/
theorem cached_of_not_going {names gone : List FileName} (hname : name ∈ names)
    (h : name ∉ going outDir nodeAt names gone) : nodeAt (outDir ++ [name]) = some .directory ∧
      ∃ before, name ∉ before ∧ isCacheDirectory (without outDir nodeAt before) (outDir ++ [name]) = true := by
  induction names generalizing gone with
  | nil => cases hname
  | cons first names ih =>
    rw [going] at h
    split at h
    · next hcache =>
      rcases List.mem_cons.1 hname with rfl | hname
      · exact ⟨hcache.1, gone, fun hgone => h (subset_going names gone hgone), hcache.2⟩
      · exact ih hname h
    · rcases List.mem_cons.1 hname with rfl | hname
      · exact absurd (subset_going names _ List.mem_cons_self) h
      · exact ih hname h

/-- A directory whose tag is a regular file does not go. -/
theorem not_going_of_isFile {names gone : List FileName} (hdir : Reached nodeAt (outDir ++ [name]))
    (htag : nodeAt (outDir ++ [name] ++ [CACHEDIR_TAG]) = some node) (hfile : node.isFile = true) (hgone : name ∉ gone) :
    name ∉ going outDir nodeAt names gone := by
  induction names generalizing gone with
  | nil => exact hgone
  | cons first names ih =>
    rw [going]
    split
    · exact ih hgone
    · next hcache =>
      refine ih fun hin => ?_
      rcases List.mem_cons.1 hin with rfl | hin
      · refine hcache ⟨hdir _ (List.prefix_refl _), isCacheDirectory_of_isFile (fun prior hprior => ?_) ?_ hfile⟩
        · rcases List.prefix_concat_iff.1 hprior with rfl | habove
          · rw [without_entry, if_neg hgone]
            exact hdir _ (List.prefix_refl _)
          · rw [without_other _ (not_entry habove)]
            exact hdir _ hprior
        · rw [List.append_assoc] at htag ⊢
          rw [List.singleton_append] at htag ⊢
          rw [without_entry, if_neg hgone, htag]
      · exact hgone hin

/-- What is kept is all there, and has a tag. -/
theorem Kept.tagged (h : Kept outDir d name) :
    d.nodeAt (outDir ++ [name]) = some .directory ∧ Tagged d.nodeAt (outDir ++ [name]) := by
  obtain ⟨hdir, before, hbefore, hcache⟩ := cached_of_not_going h.1 h.2
  have hreached : Reached (without outDir d.nodeAt before) (outDir ++ [name]) := by
    intro prior hprior
    rcases List.prefix_concat_iff.1 hprior with rfl | habove
    · rw [without_entry, if_neg hbefore, hdir]
    · rw [without_other _ (not_entry habove), Disk.directory_of_prefix hdir hprior]
  obtain ⟨node, hnode, hkind⟩ := tagged_of_isCacheDirectory hreached hcache
  refine ⟨hdir, node, ?_, hkind⟩
  rw [List.append_assoc, List.singleton_append] at hnode ⊢
  rwa [without_entry, if_neg hbefore] at hnode

theorem Kept.cleared (h : Kept outDir d name) (rest : Path) :
    (clearTree outDir d).nodeAt (outDir ++ name :: rest) = d.nodeAt (outDir ++ name :: rest) := by
  rw [nodeAt_clearTree, without_entry, if_neg h.2]

theorem cleared_of_not_kept (h : ¬ Kept outDir d name) (rest : Path) :
    (clearTree outDir d).nodeAt (outDir ++ name :: rest) = none := by
  rw [nodeAt_clearTree, without_entry]
  split
  · rfl
  · next hstays =>
    -- nothing was there
    have hname : ¬ name ∈ children d.tree outDir := fun hname => h ⟨hname, hstays⟩
    rw [Disk.mem_children, Option.not_isSome_iff_eq_none] at hname
    rw [← Option.not_isSome_iff_eq_none]
    intro hsome
    cases rest with
    | nil => simp [hname] at hsome
    | cons next rest =>
      rw [List.append_cons] at hsome
      rw [Disk.directory_of_append (List.cons_ne_nil _ _) hsome] at hname
      cases hname

/-- But for links to a tag, that is a cache directory. -/
theorem kept_iff (hlink : ∀ target, d.nodeAt (outDir ++ [name] ++ [CACHEDIR_TAG]) ≠ some (.symlink target)) :
    Kept outDir d name ↔ d.nodeAt (outDir ++ [name]) = some .directory ∧ isCacheDirectory d.nodeAt (outDir ++ [name]) = true := by
  have hfile : Tagged d.nodeAt (outDir ++ [name]) →
      ∃ node, d.nodeAt (outDir ++ [name] ++ [CACHEDIR_TAG]) = some node ∧ node.isFile = true := by
    intro htag
    obtain ⟨node, hnode, hkind⟩ := htag
    refine ⟨node, hnode, hkind.resolve_right fun hsymlink => ?_⟩
    cases node with
    | symlink target => exact hlink target hnode
    | directory | file | special => cases hsymlink
  constructor
  · intro hkept
    obtain ⟨hdir, htag⟩ := hkept.tagged
    obtain ⟨node, hnode, hisFile⟩ := hfile htag
    exact ⟨hdir, isCacheDirectory_of_isFile (Disk.reached hdir) hnode hisFile⟩
  · intro hcache
    obtain ⟨node, hnode, hisFile⟩ := hfile (tagged_of_isCacheDirectory (Disk.reached hcache.1) hcache.2)
    refine ⟨Disk.mem_children.2 (by rw [hcache.1]; rfl), ?_⟩
    exact not_going_of_isFile (Disk.reached hcache.1) hnode hisFile List.not_mem_nil

/-- Nothing but directories is on the way. -/
def Way (nodeAt : Path → Option Node) (path : Path) : Prop :=
  ∀ prior, prior <+: path → nodeAt prior = none ∨ nodeAt prior = some .directory

theorem createDirs_ok {names : List FileName} (hbase : d.nodeAt base = some .directory)
    (hway : Way d.nodeAt (base ++ names)) : ∃ d', createDirs d base names = .ok d' := by
  induction names generalizing d base with
  | nil => exact ⟨d, rfl⟩
  | cons name names ih =>
    rw [List.append_cons] at hway
    unfold createDirs
    rcases hway _ (List.prefix_append _ _) with hnone | hdir
    · obtain ⟨d₁, hmade⟩ := exists_createDir hbase hnone
      have hnode := (createDir_eq_some hmade).2
      simp only [hnone, hmade, okOr, Option.elim]
      refine ih (by rw [hnode, if_pos rfl]) fun prior hprior => ?_
      rw [hnode]
      split
      · exact .inr rfl
      · exact hway prior hprior
    · simp only [hdir]
      exact ih hdir hway

/-! ### The disk before anything is written -/

/-- OUT_DIR is there then. What is made are directories on the way to it. -/
theorem createDirs_eq_ok {names : List FileName} (h : createDirs d base names = .ok d')
    (hbase : d.nodeAt base = some .directory) : d'.nodeAt (base ++ names) = some .directory ∧
      (∀ place, ¬ place <+: base ++ names → d'.nodeAt place = d.nodeAt place) ∧
      (d.nodeAt (base ++ names) = some .directory → d' = d) := by
  induction names generalizing d base with
  | nil =>
    obtain rfl := pure_eq_ok.1 h
    simp [hbase]
  | cons name names ih =>
    unfold createDirs at h
    split at h
    · next hdir =>
      have hnext := ih h hdir
      rwa [List.append_assoc] at hnext
    · cases h
    · next hnone =>
      obtain ⟨d₁, hmade, h⟩ := bind_eq_ok.1 h
      obtain ⟨-, hmade⟩ := createDir_eq_some (okOr_eq_ok.1 hmade)
      obtain ⟨hdir, hothers, -⟩ := ih h (by rw [hmade, if_pos rfl])
      rw [List.append_assoc, List.singleton_append] at hdir hothers
      refine ⟨hdir, fun place hplace => ?_, fun hthere => ?_⟩
      · rw [hothers place hplace, hmade, if_neg]
        rintro rfl
        exact hplace ⟨names, by simp⟩
      · have hname : d.nodeAt (base ++ [name]) = some .directory :=
          Disk.directory_of_prefix hthere ⟨names, by simp⟩
        rw [hnone] at hname
        cases hname

structure Prepared (outDir : Path) (d cleared : Disk) : Prop where
  kept : ∀ {name}, Kept outDir d name → cleared.nodeAt (outDir ++ [name]) = some .directory ∧
    Tagged cleared.nodeAt (outDir ++ [name]) ∧ ∀ rest, cleared.nodeAt (outDir ++ name :: rest) = d.nodeAt (outDir ++ name :: rest)
  gone : ∀ {name}, ¬ Kept outDir d name → ∀ rest, cleared.nodeAt (outDir ++ name :: rest) = none
  others : ∀ {name}, Kept outDir d name → ∀ place, (∀ name rest, place ≠ outDir ++ name :: rest) →
    cleared.nodeAt place = d.nodeAt place

theorem createDirs_prepared {cleared : Disk} (h : createDirs (clearTree outDir d) [] outDir = .ok cleared) :
    Prepared outDir d cleared := by
  obtain ⟨-, hothers, hthere⟩ := createDirs_eq_ok h (clearTree outDir d).grounded.root
  rw [List.nil_append] at hothers hthere
  have hsame (name : FileName) (rest : Path) :
      cleared.nodeAt (outDir ++ name :: rest) = (clearTree outDir d).nodeAt (outDir ++ name :: rest) := by
    exact hothers _ fun hpre => not_entry hpre name rest rfl
  refine ⟨fun {name} hkept => ?_, fun {name} hgone rest => (hsame name rest).trans (cleared_of_not_kept hgone rest),
    fun {name} hkept place hplace => ?_⟩
  · obtain ⟨hdir, node, hnode, hkind⟩ := hkept.tagged
    have hall (rest : Path) := (hsame name rest).trans (hkept.cleared rest)
    refine ⟨(hall []).trans hdir, ⟨node, ?_, hkind⟩, hall⟩
    rw [List.append_assoc] at hnode ⊢
    exact (hall _).trans hnode
  · have hout : (clearTree outDir d).nodeAt outDir = some .directory := by
      rw [nodeAt_clearTree, without_other _ (not_entry (List.prefix_refl _))]
      exact Disk.directory_of_prefix hkept.tagged.1 (List.prefix_append _ _)
    rw [hthere hout, nodeAt_clearTree, without_other _ hplace]

/-! ## Writing -/

/-- On the way to a path, before its end. -/
def Before (prior path : Path) : Prop := prior ≠ [] ∧ prior <+: path ∧ prior ≠ path

theorem before_singleton : ¬ Before path [name] := by
  intro h
  rcases List.prefix_concat_iff.1 (show path <+: [] ++ [name] from h.2.1) with heq | hnil
  · exact h.2.2 heq
  · exact h.1 (List.prefix_nil.1 hnil)

theorem before_cons {prior : Path} (hrest : rest ≠ []) : Before prior (name :: rest) ↔
    prior = [name] ∨ ∃ after, prior = name :: after ∧ Before after rest := by
  cases prior with
  | nil => simp [Before]
  | cons first prior =>
    by_cases hnil : prior = []
    · subst hnil
      simp [Before, Ne.symm hrest]
    · simp only [Before, List.cons_prefix_cons, List.cons.injEq, hnil, and_false, false_or]
      grind

theorem safeDestination_eq_ok {names : List FileName} {dest : Path} (hne : names ≠ [])
    (h : safeDestination d base names = .ok (dest, d')) : dest = base ++ names ∧
      (∀ prior, Before prior names → d'.nodeAt (base ++ prior) = some .directory ∧
        (d.nodeAt (base ++ prior) = none ∨ d.nodeAt (base ++ prior) = some .directory)) ∧
      ∀ place, (∀ prior, Before prior names → place ≠ base ++ prior) → d'.nodeAt place = d.nodeAt place := by
  induction names generalizing d base with
  | nil => exact absurd rfl hne
  | cons name names ih =>
    by_cases hnames : names = []
    · subst hnames
      simp only [safeDestination, if_true] at h
      split at h
      · cases h
      · obtain ⟨rfl, rfl⟩ := Prod.mk.inj (pure_eq_ok.1 h)
        exact ⟨rfl, fun prior hprior => absurd hprior before_singleton, fun place _ => rfl⟩
    · -- the directory is there, or is made
      obtain ⟨d₁, hdir, hearlier, hsame, h⟩ : ∃ d₁ : Disk, d₁.nodeAt (base ++ [name]) = some .directory ∧
          (d.nodeAt (base ++ [name]) = none ∨ d.nodeAt (base ++ [name]) = some .directory) ∧
          (∀ place, place ≠ base ++ [name] → d₁.nodeAt place = d.nodeAt place) ∧
          safeDestination d₁ (base ++ [name]) names = .ok (dest, d') := by
        simp only [safeDestination, hnames, if_false] at h
        split at h
        · split at h
          · next hdir => exact ⟨d, hdir, .inr hdir, fun _ _ => rfl, h⟩
          · cases h
        · obtain ⟨d₁, hmade, h⟩ := bind_eq_ok.1 h
          obtain ⟨hnone, hmade⟩ := createDir_eq_some (okOr_eq_ok.1 hmade)
          refine ⟨d₁, by rw [hmade, if_pos rfl], .inl hnone, fun place hplace => ?_, h⟩
          rw [hmade, if_neg (Ne.symm hplace)]
      obtain ⟨hdest, hpriors, hothers⟩ := ih hnames h
      refine ⟨by simpa using hdest, fun prior hprior => ?_, fun place hplace => ?_⟩
      · rcases (before_cons hnames).1 hprior with rfl | ⟨after, rfl, hafter⟩
        · refine ⟨?_, hearlier⟩
          rw [hothers _ fun after hafter heq => hafter.1 (by simpa using heq), hdir]
        · have hne' : base ++ name :: after ≠ base ++ [name] := fun heq => hafter.1 (by simpa using heq)
          have hthere := hpriors after hafter
          rw [List.append_assoc, List.singleton_append, hsame _ hne'] at hthere
          exact hthere
      · rw [hothers place fun after hafter heq => ?_, hsame place ?_]
        · exact hplace [name] ((before_cons hnames).2 (.inl rfl))
        · exact hplace (name :: after) ((before_cons hnames).2 (.inr ⟨after, rfl, hafter⟩)) (by simpa using heq)

theorem safeDestination_ok {names : List FileName} (hne : names ≠ []) (hbase : d.nodeAt base = some .directory)
    (hway : ∀ prior, Before prior names → d.nodeAt (base ++ prior) = none ∨ d.nodeAt (base ++ prior) = some .directory)
    (hend : ∀ node, d.nodeAt (base ++ names) = some node → node.isSymlink = false) :
    ∃ dest d', safeDestination d base names = .ok (dest, d') := by
  induction names generalizing d base with
  | nil => exact absurd rfl hne
  | cons name names ih =>
    by_cases hnames : names = []
    · subst hnames
      refine ⟨base ++ [name], d, ?_⟩
      have hlink : (d.nodeAt (base ++ [name])).any (·.isSymlink) = false := by
        cases hnode : d.nodeAt (base ++ [name]) with
        | none => rfl
        | some node => exact hend node hnode
      simp [safeDestination, hlink, pure, Except.pure]
    · have hfirst : Before [name] (name :: names) := (before_cons hnames).2 (.inl rfl)
      have hlater (prior : Path) (hprior : Before prior names) : Before (name :: prior) (name :: names) :=
        (before_cons hnames).2 (.inr ⟨prior, rfl, hprior⟩)
      rcases hway [name] hfirst with hnone | hdir
      · obtain ⟨d₁, hmade⟩ := exists_createDir hbase hnone
        have hnode := (createDir_eq_some hmade).2
        have hother (rest : Path) (hrest : rest ≠ []) :
            d₁.nodeAt (base ++ [name] ++ rest) = d.nodeAt (base ++ name :: rest) := by
          rw [List.append_assoc, List.singleton_append, hnode, if_neg]
          simpa using hrest.symm
        simp only [safeDestination, hnames, if_false, followed_missing (Disk.reached hbase) hnone, Option.isSome_none,
          Bool.false_eq_true, hmade, okOr, Option.elim]
        refine ih hnames (by rw [hnode, if_pos rfl]) (fun prior hprior => ?_) fun node hend' => ?_
        · rw [hother prior hprior.1]
          exact hway _ (hlater prior hprior)
        · rw [hother names hnames] at hend'
          exact hend node hend'
      · simp only [safeDestination, hnames, if_false, followed_name (Disk.reached hbase) hdir rfl, Option.isSome_some,
          if_true, hdir]
        refine ih hnames hdir (fun prior hprior => ?_) fun node hend' => ?_
        · rw [List.append_assoc, List.singleton_append]
          exact hway _ (hlater prior hprior)
        · rw [List.append_assoc, List.singleton_append] at hend'
          exact hend node hend'

/-- The files are written below a directory, in directories that were there or are made. -/
structure Written (outDir : Path) (files : List Packed) (d d' : Disk) : Prop where
  others : ∀ place, (∀ file ∈ files, place ≠ outDir ++ file.path ∧ ∀ prior, Before prior file.path →
    place ≠ outDir ++ prior) → d'.nodeAt place = d.nodeAt place
  present : ∀ file ∈ files, ∃ other ∈ files, other.path = file.path ∧
    d'.nodeAt (outDir ++ file.path) = some (.file other.bytes other.executable)
  parents : ∀ file ∈ files, ∀ prior, Before prior file.path → d'.nodeAt (outDir ++ prior) = some .directory
  through : ∀ file ∈ files, ∀ prior, Before prior file.path →
    d.nodeAt (outDir ++ prior) = none ∨ d.nodeAt (outDir ++ prior) = some .directory
  free : ∀ file ∈ files, d.nodeAt (outDir ++ file.path) ≠ some .directory

/-- A file that nothing else was in the way of. -/
theorem setFileExecutable_eq_ok {bytes : List UInt8} {executable : Bool}
    (hnode : d.nodeAt path = some (.file bytes false)) (h : setFileExecutable d path executable = .ok d') (other : Path) :
    d'.nodeAt other = if path = other then some (.file bytes executable) else d.nodeAt other := by
  cases executable with
  | false =>
    obtain rfl := pure_eq_ok.1 h
    split
    · next heq => rw [← heq, hnode]
    · rfl
  | true =>
    simp only [setFileExecutable, hnode, if_true] at h
    exact (put?_eq_some (okOr_eq_ok.1 h)).2 other

theorem restoreFile_eq_ok {file : TreeFile} {names : List FileName} (hne : names ≠ [])
    (hnames : file.path.mapM (fun segment => FileName.of? (utf8 segment)) = some names)
    (h : restoreFile outDir d file = .ok d') : Written outDir [⟨names, file.bytes, file.executable⟩] d d' := by
  simp only [restoreFile, hnames, bind_eq_ok, okOr_eq_ok, Option.some.injEq, Prod.exists] at h
  obtain ⟨_, rfl, dest, d₁, hdest, d₂, hwritten, h⟩ := h
  obtain ⟨rfl, hpriors, hothers⟩ := safeDestination_eq_ok hne hdest
  obtain ⟨hfree, hput⟩ := put?_eq_some (okOr_eq_ok.1 hwritten)
  have hset := setFileExecutable_eq_ok (by rw [hput, if_pos rfl]) h
  have hall (place : Path) (hplace : place ≠ outDir ++ names) : d'.nodeAt place = d₁.nodeAt place := by
    rw [hset, if_neg (Ne.symm hplace), hput, if_neg (Ne.symm hplace)]
  constructor
  · intro place hplace
    obtain ⟨hend, hbefore⟩ := hplace _ (List.mem_singleton_self _)
    rw [hall place hend, hothers place hbefore]
  · intro file hfile
    obtain rfl := List.mem_singleton.1 hfile
    exact ⟨_, List.mem_singleton_self _, rfl, by rw [hset, if_pos rfl]⟩
  · intro file hfile prior hprior
    obtain rfl := List.mem_singleton.1 hfile
    rw [hall _ fun heq => hprior.2.2 (List.append_cancel_left heq)]
    exact (hpriors prior hprior).1
  · intro file hfile prior hprior
    obtain rfl := List.mem_singleton.1 hfile
    exact (hpriors prior hprior).2
  · intro file hfile
    obtain rfl := List.mem_singleton.1 hfile
    rw [← hothers _ fun prior hprior heq => hprior.2.2 (List.append_cancel_left heq).symm]
    exact hfree

theorem Written.nil : Written outDir [] d d := by
  constructor <;> simp

/-- A place is a file's, or that of a directory on the way to one, or nothing changes there. -/
theorem Written.cases {files : List Packed} (h : Written outDir files d d') (place : Path) :
    (∃ file ∈ files, place = outDir ++ file.path) ∨
      (∃ file ∈ files, ∃ prior, Before prior file.path ∧ place = outDir ++ prior) ∨ d'.nodeAt place = d.nodeAt place := by
  by_contra hnone
  push Not at hnone
  exact hnone.2.2 (h.others place fun file hfile => ⟨hnone.1 file hfile, hnone.2.1 file hfile⟩)

/-- A file, and then the others. -/
theorem Written.cons {file : Packed} {files : List Packed} {d₁ : Disk} (h : Written outDir [file] d d₁)
    (h' : Written outDir files d₁ d') : Written outDir (file :: files) d d' := by
  have hmem := List.mem_singleton_self file
  have hpresent : d₁.nodeAt (outDir ++ file.path) = some (.file file.bytes file.executable) := by
    obtain ⟨other, hother, -, hnode⟩ := h.present file hmem
    rwa [List.mem_singleton.1 hother] at hnode
  have hcases (place : Path) : place = outDir ++ file.path ∨ (∃ prior, Before prior file.path ∧ place = outDir ++ prior) ∨
      d₁.nodeAt place = d.nodeAt place := by
    simpa using h.cases place
  constructor
  · intro place hplace
    obtain ⟨hfile, hfiles⟩ := List.forall_mem_cons.1 hplace
    rw [h'.others place hfiles]
    rcases hcases place with rfl | ⟨prior, hprior, rfl⟩ | hsame
    · exact absurd rfl hfile.1
    · exact absurd rfl (hfile.2 prior hprior)
    · exact hsame
  · refine List.forall_mem_cons.2 ⟨?_, fun other hother => ?_⟩
    · rcases h'.cases (outDir ++ file.path) with ⟨later, hlater, heq⟩ | ⟨later, hlater, prior, hprior, heq⟩ | hsame
      · obtain ⟨last, hlast, hpath, hnode⟩ := h'.present later hlater
        rw [← heq] at hnode
        exact ⟨last, List.mem_cons_of_mem _ hlast, hpath.trans (List.append_cancel_left heq).symm, hnode⟩
      · have hthrough := h'.through later hlater prior hprior
        rw [← heq, hpresent] at hthrough
        simp at hthrough
      · exact ⟨file, List.mem_cons_self, rfl, hsame.trans hpresent⟩
    · obtain ⟨last, hlast, hpath, hnode⟩ := h'.present other hother
      exact ⟨last, List.mem_cons_of_mem _ hlast, hpath, hnode⟩
  · refine List.forall_mem_cons.2 ⟨fun prior hprior => ?_, h'.parents⟩
    have hdir := h.parents file hmem prior hprior
    rcases h'.cases (outDir ++ prior) with ⟨later, hlater, heq⟩ | ⟨later, hlater, prior', hprior', heq⟩ | hsame
    · exact absurd (heq ▸ hdir) (h'.free later hlater)
    · rw [heq]
      exact h'.parents later hlater prior' hprior'
    · exact hsame.trans hdir
  · refine List.forall_mem_cons.2 ⟨h.through file hmem, fun other hother prior hprior => ?_⟩
    have hlater := h'.through other hother prior hprior
    rcases hcases (outDir ++ prior) with heq | ⟨prior', hprior', heq⟩ | hsame
    · rw [heq, hpresent] at hlater
      simp at hlater
    · rw [heq]
      exact h.through file hmem prior' hprior'
    · rwa [hsame] at hlater
  · refine List.forall_mem_cons.2 ⟨h.free file hmem, fun other hother => ?_⟩
    have hlater := h'.free other hother
    rcases hcases (outDir ++ other.path) with heq | ⟨prior, hprior, heq⟩ | hsame
    · rw [heq]
      exact h.free file hmem
    · exact absurd (heq ▸ h.parents file hmem prior hprior) hlater
    · rwa [hsame] at hlater

/-! ## Where everything can be written -/

/-- No file is in the way of another. -/
def Apart (files : List Packed) : Prop := ∀ file ∈ files, ∀ other ∈ files, ¬ Before file.path other.path

/-- The directory is there, and in it nothing is in the way of the files. -/
structure Ready (outDir : Path) (files : List Packed) (d : Disk) : Prop where
  root : d.nodeAt outDir = some .directory
  way : ∀ file ∈ files, ∀ prior, Before prior file.path →
    d.nodeAt (outDir ++ prior) = none ∨ d.nodeAt (outDir ++ prior) = some .directory
  free : ∀ file ∈ files, ∀ node, d.nodeAt (outDir ++ file.path) = some node → node.isFile = true

theorem atomicWrite_ok (bytes : List UInt8) (hdir : d.nodeAt path.dropLast = some .directory)
    (hfree : d.nodeAt path ≠ some .directory) (executable : Bool) :
    ∃ d₁ d₂, atomicWrite d path bytes = .ok d₁ ∧ setFileExecutable d₁ path executable = .ok d₂ := by
  obtain ⟨d₁, hput⟩ := exists_put? hdir hfree (.file bytes false)
  have hnode := (put?_eq_some hput).2
  refine ⟨d₁, ?_⟩
  rw [atomicWrite, hput]
  cases executable with
  | false => exact ⟨d₁, rfl, rfl⟩
  | true =>
    have hthere : d₁.nodeAt path = some (.file bytes false) := by rw [hnode, if_pos rfl]
    have hparent : d₁.nodeAt path.dropLast = some .directory := by
      rw [hnode]
      split
      · next heq => exact absurd (heq ▸ hdir) hfree
      · exact hdir
    obtain ⟨d₂, hset⟩ := exists_put? hparent (by simp [hthere]) (.file bytes true)
    refine ⟨d₂, rfl, ?_⟩
    simp only [setFileExecutable, if_true, hthere]
    exact okOr_eq_ok.2 hset

theorem restoreFile_ok {files : List Packed} (hready : Ready outDir files d) {file : Packed} (hfile : file ∈ files)
    (hne : file.path ≠ []) {segments : List Text}
    (hnames : segments.mapM (fun segment => FileName.of? (utf8 segment)) = some file.path) :
    ∃ d', restoreFile outDir d ⟨segments, file.executable, file.bytes⟩ = .ok d' := by
  have hlink : ∀ node, d.nodeAt (outDir ++ file.path) = some node → node.isSymlink = false := by
    intro node hnode
    have hisFile := hready.free file hfile node hnode
    cases node <;> simp [Node.isFile, Node.isSymlink] at hisFile ⊢
  obtain ⟨dest, d₁, hdest⟩ := safeDestination_ok hne hready.root (hready.way file hfile) hlink
  obtain ⟨rfl, hpriors, hothers⟩ := safeDestination_eq_ok hne hdest
  have hparent : d₁.nodeAt (outDir ++ file.path).dropLast = some .directory := by
    rw [List.dropLast_append_of_ne_nil hne]
    by_cases hlast : file.path.dropLast = []
    · rw [hlast, List.append_nil, hothers outDir fun prior hprior heq => hprior.1 (List.append_right_eq_self.1 heq.symm)]
      exact hready.root
    · refine (hpriors _ ⟨hlast, List.dropLast_prefix _, fun heq => ?_⟩).1
      have hlength := congrArg List.length heq
      rw [List.length_dropLast] at hlength
      have := List.length_pos_iff.2 hne
      omega
  have hfree : d₁.nodeAt (outDir ++ file.path) ≠ some .directory := by
    rw [hothers _ fun prior hprior heq => hprior.2.2 (List.append_cancel_left heq).symm]
    intro hdir
    cases hready.free file hfile _ hdir
  obtain ⟨d₂, d₃, hwrite, hset⟩ := atomicWrite_ok file.bytes hparent hfree file.executable
  exact ⟨d₃, bind_eq_ok.2 ⟨_, okOr_eq_ok.2 hnames, bind_eq_ok.2 ⟨_, hdest, bind_eq_ok.2 ⟨_, hwrite, hset⟩⟩⟩⟩

/-- With one more file, everything can still be written. -/
theorem Ready.written {files : List Packed} (h : Ready outDir files d) (hapart : Apart files) (hne : ∀ file ∈ files, file.path ≠ [])
    {file : Packed} (hfile : file ∈ files) (hwritten : Written outDir [file] d d') : Ready outDir files d' := by
  have hmem := List.mem_singleton_self file
  have hthere : d'.nodeAt (outDir ++ file.path) = some (.file file.bytes file.executable) := by
    obtain ⟨other, hother, -, hnode⟩ := hwritten.present file hmem
    rwa [List.mem_singleton.1 hother] at hnode
  have hcases (path : Path) : path = file.path ∨ Before path file.path ∧ d'.nodeAt (outDir ++ path) = some .directory ∨
      d'.nodeAt (outDir ++ path) = d.nodeAt (outDir ++ path) := by
    rcases hwritten.cases (outDir ++ path) with ⟨other, hother, heq⟩ | ⟨other, hother, prior, hprior, heq⟩ | hsame
    · obtain rfl := List.mem_singleton.1 hother
      exact .inl (List.append_cancel_left heq)
    · obtain rfl := List.mem_singleton.1 hother
      obtain rfl := List.append_cancel_left heq
      exact .inr (.inl ⟨hprior, hwritten.parents other hmem _ hprior⟩)
    · exact .inr (.inr hsame)
  refine ⟨?_, fun other hother prior hprior => ?_, fun other hother node hnode => ?_⟩
  · rcases hcases [] with hnil | ⟨hbefore, -⟩ | hsame
    · exact absurd hnil.symm (hne file hfile)
    · exact absurd rfl hbefore.1
    · rw [List.append_nil] at hsame
      exact hsame.trans h.root
  · rcases hcases prior with rfl | ⟨-, hdir⟩ | hsame
    · exact absurd hprior (hapart file hfile other hother)
    · exact .inr hdir
    · rw [hsame]
      exact h.way other hother prior hprior
  · rcases hcases other.path with heq | ⟨hbefore, -⟩ | hsame
    · rw [heq, hthere] at hnode
      obtain rfl := Option.some.inj hnode
      rfl
    · exact absurd hbefore (hapart other hother file hfile)
    · exact h.free other hother node (hsame ▸ hnode)

/-- A packed file as it is restored. -/
def Packed.restored (file : Packed) : Packed := { file with path := file.path.map restoredName }

theorem foldlM_restoreFile {packed : List Packed} (hne : ∀ file ∈ packed, file.path ≠ [])
    (h : (packed.map (·.unpacked)).foldlM (restoreFile outDir) d = .ok d') :
    Written outDir (packed.map (·.restored)) d d' := by
  induction packed generalizing d with
  | nil =>
    obtain rfl := pure_eq_ok.1 h
    exact .nil
  | cons file packed ih =>
    obtain ⟨hfile, hne⟩ := List.forall_mem_cons.1 hne
    rw [List.map_cons, List.foldlM_cons] at h
    obtain ⟨d₁, hfirst, h⟩ := bind_eq_ok.1 h
    have hnames : file.restored.path ≠ [] := fun hnil => hfile (List.map_eq_nil_iff.1 hnil)
    have hwritten : Written outDir [file.restored] d d₁ :=
      restoreFile_eq_ok hnames (mapM_of?_lossy file.path) hfirst
    exact hwritten.cons (ih hne h)

theorem foldlM_restoreFile_ok {files packed : List Packed} (hready : Ready outDir files d) (hapart : Apart files)
    (hne : ∀ file ∈ files, file.path ≠ []) (hsub : ∀ file ∈ packed, file.restored ∈ files) :
    ∃ d', (packed.map (·.unpacked)).foldlM (restoreFile outDir) d = .ok d' := by
  induction packed generalizing d with
  | nil => exact ⟨d, rfl⟩
  | cons file packed ih =>
    obtain ⟨hfile, hsub⟩ := List.forall_mem_cons.1 hsub
    obtain ⟨d₁, hfirst⟩ := restoreFile_ok hready hfile (hne _ hfile) (mapM_of?_lossy file.path)
    have hwritten : Written outDir [file.restored] d d₁ :=
      restoreFile_eq_ok (hne _ hfile) (mapM_of?_lossy file.path) hfirst
    obtain ⟨d', hrest⟩ := ih (hready.written hapart hne hfile hwritten) hsub
    refine ⟨d', ?_⟩
    rw [List.map_cons, List.foldlM_cons]
    exact bind_eq_ok.2 ⟨d₁, hfirst, hrest⟩

end Bellows.Cli.ScriptTree
