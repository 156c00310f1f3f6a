/-
What a restore leaves of an OUT_DIR tree: of the earlier content the cache
directories at its top, beside them the files of the archive in their
directories, and nothing else.
-/
import Bellows.Cli.ReplaceTree

namespace Bellows.Cli.ScriptTree

open Text Trees Checked Bellows.Core

variable {d earlier cleared restored : Disk} {root outDir path : Path} {name : FileName} {node : Node}
  {packed : List Packed}

/-! ## The restored tree -/

/-- What a tree is captured of: directories and regular files. -/
def Node.captured : Node → Bool
  | .directory | .file _ _ => true
  | .symlink _ | .special => false

/-- Outside cache directories, the directories and files of the captured tree and nothing else. -/
def SameTree (d : Disk) (root : Path) (restored : Disk) (outDir : Path) : Prop :=
  ∀ path node, Shows restored.nodeAt outDir path node ↔ Shows d.nodeAt root path node ∧ node.captured = true

/-- The earlier content that is kept, beside it what is to be restored. -/
def rebuilt (d : Disk) (root : Path) (earlier : Disk) (outDir place : Path) : Option Node :=
  match stripPrefix? outDir place with
  | some (name :: rest) =>
    if Kept outDir earlier name then earlier.nodeAt place
    else if outside d.nodeAt root (name :: rest) then (d.nodeAt (root ++ name :: rest)).filter (·.captured)
    else none
  | _ => earlier.nodeAt place

/-- What a tree must be like to be written over an earlier content. -/
structure Fitting (d : Disk) (root : Path) (earlier : Disk) (outDir : Path) : Prop where
  /-- Names of files and of what they are in are text, whose segments on any system are names. -/
  names : ∀ path bytes executable, Shows d.nodeAt root path (.file bytes executable) →
    ∀ name ∈ path, (∃ text, name.1 = utf8 text) ∧ Portable name
  /-- No directory is without files. -/
  directories : ∀ path, Shows d.nodeAt root path .directory →
    ∃ rest bytes executable, Shows d.nodeAt root (path ++ rest) (.file bytes executable)
  /-- No cache directory is kept under the name of one of the entries. -/
  entries : ∀ name path node, Shows d.nodeAt root (name :: path) node → node.captured = true →
    ¬ Kept outDir earlier name

/-- The cache directories that are kept still are some then, even if their tags are links. -/
structure Restorable (d : Disk) (root : Path) (earlier : Disk) (outDir : Path) : Prop
    extends Fitting d root earlier outDir where
  tags : ∀ name, Kept outDir earlier name →
    isCacheDirectory (rebuilt d root earlier outDir) (outDir ++ [name]) = true

/-- A cache directory's tag is not shown. -/
theorem Shows.not_tag (h : Shows d.nodeAt root (path ++ [CACHEDIR_TAG]) node) (hpath : path ≠ []) :
    node.isFile = false := by
  have hdir := (h.directory hpath (List.cons_ne_nil _ _)).node
  refine Bool.eq_false_iff.2 fun hfile => ?_
  have htag := h.node
  rw [← List.append_assoc] at htag
  exact outside_iff.1 h.outside path hpath (List.prefix_append _ _)
    ⟨hdir, isCacheDirectory_of_isFile (Disk.reached hdir) htag hfile⟩

theorem restored_path_eq (h : ∀ name ∈ path, ∃ text, name.1 = utf8 text) : path.map restoredName = path := by
  conv_rhs => rw [← List.map_id path]
  exact List.map_congr_left fun name hname => restoredName_eq_iff.2 (h name hname)

/-- A restore, once the archive is unpacked and the directory cleared. -/
structure Rewritten (d : Disk) (root outDir : Path) (packed : List Packed) (earlier cleared restored : Disk) : Prop where
  shown : ∀ file : Packed, file ∈ packed ↔ Shows d.nodeAt root file.path (.file file.bytes file.executable)
  prepared : Prepared outDir earlier cleared
  written : Written outDir (packed.map (·.restored)) cleared restored

namespace Rewritten

section

variable (h : Rewritten d root outDir packed earlier cleared restored)

include h

/-- At a path there is a file, or a directory on the way to one, or what was there before. -/
theorem cases (path : Path) :
    (∃ file ∈ packed, path = file.path.map restoredName ∧ ∃ other ∈ packed, other.path.map restoredName = path ∧
        restored.nodeAt (outDir ++ path) = some (.file other.bytes other.executable)) ∨
      (∃ file ∈ packed, Before path (file.path.map restoredName) ∧ restored.nodeAt (outDir ++ path) = some .directory ∧
        (cleared.nodeAt (outDir ++ path) = none ∨ cleared.nodeAt (outDir ++ path) = some .directory)) ∨
      restored.nodeAt (outDir ++ path) = cleared.nodeAt (outDir ++ path) := by
  rcases h.written.cases (outDir ++ path) with ⟨file, hfile, heq⟩ | ⟨file, hfile, prior, hprior, heq⟩ | hsame
  · obtain rfl := List.append_cancel_left heq
    obtain ⟨other, hother, hpath, hnode⟩ := h.written.present file hfile
    obtain ⟨source, hsource, rfl⟩ := List.mem_map.1 hfile
    obtain ⟨last, hlast, rfl⟩ := List.mem_map.1 hother
    exact .inl ⟨source, hsource, rfl, last, hlast, hpath, hnode⟩
  · obtain rfl := List.append_cancel_left heq
    have hdir := h.written.parents file hfile _ hprior
    have hthrough := h.written.through file hfile _ hprior
    obtain ⟨source, hsource, rfl⟩ := List.mem_map.1 hfile
    exact .inr (.inl ⟨source, hsource, hprior, hdir, hthrough⟩)
  · exact .inr (.inr hsame)

/-- What leads to a file is there. -/
theorem present {file : Packed} (hfile : file ∈ packed) (hne : path ≠ []) (hpath : path <+: file.path.map restoredName) :
    (restored.nodeAt (outDir ++ path)).isSome := by
  have hmem : file.restored ∈ packed.map (·.restored) := List.mem_map_of_mem hfile
  by_cases heq : path = file.path.map restoredName
  · obtain ⟨_, -, -, hnode⟩ := h.written.present _ hmem
    rw [heq, show file.path.map restoredName = file.restored.path from rfl, hnode]
    rfl
  · rw [h.written.parents _ hmem path ⟨hne, hpath, heq⟩]
    rfl

/-- A kept directory stays one. -/
theorem kept (hkept : Kept outDir earlier name) : restored.nodeAt (outDir ++ [name]) = some .directory := by
  obtain ⟨hdir, -⟩ := h.prepared.kept hkept
  rcases h.cases [name] with ⟨file, hfile, hpath, -⟩ | ⟨-, -, -, hthere, -⟩ | hsame
  · have hfree := h.written.free file.restored (List.mem_map_of_mem hfile)
    rw [Packed.restored, ← hpath] at hfree
    exact absurd hdir hfree
  · exact hthere
  · exact hsame.trans hdir

/-- And its tag stays. -/
theorem tagged (hkept : Kept outDir earlier name) : Tagged restored.nodeAt (outDir ++ [name]) := by
  obtain ⟨-, ⟨node, hnode, hkind⟩, -⟩ := h.prepared.kept hkept
  refine ⟨node, ?_, hkind⟩
  rw [List.append_assoc] at hnode ⊢
  rcases h.cases [name, CACHEDIR_TAG] with ⟨file, hfile, hpath, -⟩ | ⟨-, -, -, -, hthrough⟩ | hsame
  · -- only a file with the tag's name is written there, and none was packed
    obtain ⟨first, more, hfirst, -, hmore⟩ := List.map_eq_cons_iff.1 hpath.symm
    obtain ⟨tag, last, rfl, htag, hlast⟩ := List.map_eq_cons_iff.1 hmore
    obtain rfl := List.map_eq_nil_iff.1 hlast
    obtain rfl := restoredName_eq_tag htag
    have hshows : Shows d.nodeAt root ([first] ++ [CACHEDIR_TAG]) (.file file.bytes file.executable) := by
      rw [List.singleton_append, ← hfirst]
      exact (h.shown file).1 hfile
    exact absurd (hshows.not_tag (List.cons_ne_nil _ _)) (by simp [Node.isFile])
  · rw [show cleared.nodeAt (outDir ++ [name, CACHEDIR_TAG]) = some node from hnode] at hthrough
    exfalso
    cases node <;> simp [Node.isFile, Node.isSymlink] at hkind hthrough
  · exact hsame.trans hnode

/-! ### From the same tree -/

section

variable (hsame : SameTree d root restored outDir)

include hsame

/-- What is kept is a cache directory still: else its tag would be shown. -/
theorem isCacheDirectory_of_same (hkept : Kept outDir earlier name) :
    isCacheDirectory restored.nodeAt (outDir ++ [name]) = true := by
  by_contra hcache
  obtain ⟨node, hnode, hfile | hlink⟩ := h.tagged hkept
  · exact hcache (isCacheDirectory_of_isFile (Disk.reached (h.kept hkept)) hnode hfile)
  · have hout : outside restored.nodeAt outDir [name, CACHEDIR_TAG] = true := by
      refine outside_cons.2 ⟨fun hboth => hcache hboth.2, outside_cons.2 ⟨fun hboth => ?_, rfl⟩⟩
      rw [hnode] at hboth
      cases hboth.1
      cases hlink
    rw [List.append_assoc] at hnode
    obtain ⟨-, hcaptured⟩ := (hsame _ _).1 ⟨List.cons_ne_nil _ _, hout, hnode⟩
    cases node <;> simp [Node.isSymlink, Node.captured] at hlink hcaptured

theorem entries_of_same (hshows : Shows d.nodeAt root (name :: path) node) (hcaptured : node.captured = true) :
    ¬ Kept outDir earlier name := by
  intro hkept
  have hthere := (hsame _ _).2 ⟨hshows, hcaptured⟩
  refine outside_iff.1 hthere.outside [name] (List.cons_ne_nil _ _) (by simp) ⟨h.kept hkept, ?_⟩
  exact h.isCacheDirectory_of_same hsame hkept

/-- Nothing was there of what is shown. -/
theorem cleared_of_same (hshows : Shows d.nodeAt root path node) (hcaptured : node.captured = true) :
    cleared.nodeAt (outDir ++ path) = none := by
  obtain ⟨name, rest, rfl⟩ := List.exists_cons_of_ne_nil hshows.nonempty
  exact h.prepared.gone (h.entries_of_same hsame hshows hcaptured) rest

theorem text_of_same {bytes : List UInt8} {executable : Bool} (hshows : Shows d.nodeAt root path (.file bytes executable)) :
    ∀ name ∈ path, ∃ text, name.1 = utf8 text := by
  have hnode := ((hsame _ _).2 ⟨hshows, rfl⟩).node
  rcases h.cases path with ⟨file, -, rfl, -⟩ | ⟨-, -, -, hdir, -⟩ | hclear
  · intro name hname
    obtain ⟨source, -, rfl⟩ := List.mem_map.1 hname
    exact ⟨_, rfl⟩
  · rw [hnode] at hdir
    cases hdir
  · rw [hnode, h.cleared_of_same hsame hshows rfl] at hclear
    cases hclear

theorem directories_of_same (hshows : Shows d.nodeAt root path .directory) :
    ∃ rest bytes executable, Shows d.nodeAt root (path ++ rest) (.file bytes executable) := by
  have hnode := ((hsame _ _).2 ⟨hshows, rfl⟩).node
  rcases h.cases path with ⟨-, -, -, _, -, -, hfile⟩ | ⟨file, hfile, hbefore, -⟩ | hclear
  · rw [hnode] at hfile
    cases hfile
  · have hshown := (h.shown file).1 hfile
    rw [restored_path_eq (h.text_of_same hsame hshown)] at hbefore
    obtain ⟨rest, hrest⟩ := hbefore.2.1
    exact ⟨rest, file.bytes, file.executable, hrest ▸ hshown⟩
  · rw [hnode, h.cleared_of_same hsame hshows rfl] at hclear
    cases hclear

end

/-! ### To the same tree -/

section

variable (hfit : Fitting d root earlier outDir)

include hfit

theorem path_eq {file : Packed} (hfile : file ∈ packed) : file.path.map restoredName = file.path :=
  restored_path_eq fun name hname => (hfit.names _ _ _ ((h.shown file).1 hfile) name hname).1

/-- At an entry that is not kept there is what is to be restored, and nothing else. -/
theorem nodeAt_of_gone (hgone : ¬ Kept outDir earlier name) (rest : Path) :
    restored.nodeAt (outDir ++ name :: rest) = some node ↔
    Shows d.nodeAt root (name :: rest) node ∧ node.captured = true := by
  have hiff : ∀ {there : Node}, Shows d.nodeAt root (name :: rest) there → there.captured = true →
      (some there = some node ↔ Shows d.nodeAt root (name :: rest) node ∧ node.captured = true) := by
    intro there hshows hcaptured
    constructor
    · intro hsome
      obtain rfl := Option.some.inj hsome
      exact ⟨hshows, hcaptured⟩
    · exact fun hnode => hshows.node.symm.trans hnode.1.node
  rcases h.cases (name :: rest) with
    ⟨file, hfile, heq, other, hother, hsame, hnode⟩ | ⟨file, hfile, hbefore, hnode, -⟩ | hclear
  · have hshown := (h.shown other).1 hother
    rw [h.path_eq hfit hother] at hsame
    rw [hsame] at hshown
    rw [hnode]
    exact hiff hshown rfl
  · rw [h.path_eq hfit hfile] at hbefore
    obtain ⟨hne, ⟨more, hmore⟩, hproper⟩ := hbefore
    have hshown := (h.shown file).1 hfile
    rw [← hmore] at hshown
    rw [hnode]
    exact hiff (hshown.directory hne fun hnil => hproper (by rw [← hmore, hnil, List.append_nil])) rfl
  · rw [hclear, h.prepared.gone hgone rest]
    refine iff_of_false (by simp) fun hshows => ?_
    -- it would have been written
    obtain ⟨hshows, hcaptured⟩ := hshows
    obtain ⟨more, bytes, executable, hfile⟩ : ∃ more bytes executable,
        Shows d.nodeAt root (name :: rest ++ more) (.file bytes executable) := by
      cases node with
      | directory => exact hfit.directories _ hshows
      | file bytes executable => exact ⟨[], bytes, executable, by rwa [List.append_nil]⟩
      | symlink target => cases hcaptured
      | special => cases hcaptured
    have hmem : (⟨name :: rest ++ more, bytes, executable⟩ : Packed) ∈ packed := (h.shown _).2 hfile
    have hpre : name :: rest <+: (name :: rest ++ more).map restoredName := by
      rw [h.path_eq hfit hmem]
      exact List.prefix_append _ _
    have hthere := h.present hmem (List.cons_ne_nil name rest) hpre
    rw [hclear, h.prepared.gone hgone rest] at hthere
    cases hthere

/-- Nothing is written under a name that is kept. -/
theorem nodeAt_of_kept (hkept : Kept outDir earlier name) (rest : Path) :
    restored.nodeAt (outDir ++ name :: rest) = earlier.nodeAt (outDir ++ name :: rest) := by
  have hnot : ∀ file ∈ packed, ¬ name :: rest <+: file.path := by
    intro file hfile hpre
    obtain ⟨more, hmore⟩ := hpre
    have hshown := (h.shown file).1 hfile
    rw [← hmore, List.cons_append] at hshown
    exact hfit.entries _ _ _ hshown rfl hkept
  rcases h.cases (name :: rest) with ⟨file, hfile, heq, -⟩ | ⟨file, hfile, hbefore, -⟩ | hclear
  · rw [h.path_eq hfit hfile] at heq
    exact absurd (heq ▸ List.prefix_refl _) (hnot file hfile)
  · rw [h.path_eq hfit hfile] at hbefore
    exact absurd hbefore.2.1 (hnot file hfile)
  · exact hclear.trans ((h.prepared.kept hkept).2.2 rest)

/-- The tree afterwards, if anything is kept. -/
theorem nodeAt_eq_rebuilt (hkept : Kept outDir earlier name) : restored.nodeAt = rebuilt d root earlier outDir := by
  funext place
  unfold rebuilt
  split
  · next first rest hstrip =>
    obtain rfl := stripPrefix?_eq_some.1 hstrip
    split
    · next hfirst => exact h.nodeAt_of_kept hfit hfirst rest
    · next hgone =>
      refine Option.ext fun node => ?_
      rw [h.nodeAt_of_gone hfit hgone rest, Option.ite_none_right_eq_some, Option.filter_eq_some_iff]
      constructor
      · intro hshows
        exact ⟨hshows.1.outside, hshows.1.node, hshows.2⟩
      · intro hshows
        obtain ⟨hout, hnode, hcaptured⟩ := hshows
        exact ⟨⟨List.cons_ne_nil _ _, hout, hnode⟩, hcaptured⟩
  · next hnone =>
    have hbelow : ∀ path : Path, path ≠ [] → place ≠ outDir ++ path := by
      intro path hpath heq
      obtain ⟨name, rest, rfl⟩ := List.exists_cons_of_ne_nil hpath
      exact hnone name rest (stripPrefix?_eq_some.2 heq)
    rw [h.written.others place, h.prepared.others hkept place fun name rest => hbelow _ (List.cons_ne_nil _ _)]
    intro file hfile
    obtain ⟨source, hsource, rfl⟩ := List.mem_map.1 hfile
    have hpath : source.restored.path ≠ [] := by
      simpa [Packed.restored] using ((h.shown source).1 hsource).nonempty
    exact ⟨hbelow _ hpath, fun prior hprior => hbelow prior hprior.1⟩

end

theorem sameTree (hrestorable : Restorable d root earlier outDir) : SameTree d root restored outDir := by
  have hfit := hrestorable.toFitting
  intro path node
  by_cases hpath : path = []
  · subst hpath
    exact iff_of_false (fun hshows => hshows.nonempty rfl) fun hshows => hshows.1.nonempty rfl
  obtain ⟨name, rest, rfl⟩ := List.exists_cons_of_ne_nil hpath
  by_cases hkept : Kept outDir earlier name
  · have hcache : isCacheDirectory restored.nodeAt (outDir ++ [name]) = true := by
      rw [h.nodeAt_eq_rebuilt hfit hkept]
      exact hrestorable.tags name hkept
    refine iff_of_false (fun hshows => ?_) fun hshows => hfit.entries _ _ _ hshows.1 hshows.2 hkept
    exact outside_iff.1 hshows.outside [name] (List.cons_ne_nil _ _) (by simp) ⟨h.kept hkept, hcache⟩
  · constructor
    · exact fun hshows => (h.nodeAt_of_gone hfit hkept rest).1 hshows.node
    · intro hshows
      refine ⟨hpath, outside_iff.2 fun dir hdir hpre hboth => ?_, (h.nodeAt_of_gone hfit hkept rest).2 hshows⟩
      -- a tag would be shown in the captured tree
      obtain ⟨tag, htag, hkind⟩ := tagged_of_isCacheDirectory (Disk.reached hboth.1) hboth.2
      obtain ⟨first, dir, rfl⟩ := List.exists_cons_of_ne_nil hdir
      obtain ⟨rfl, -⟩ := List.cons_prefix_cons.1 hpre
      rw [List.append_assoc, List.cons_append, h.nodeAt_of_gone hfit hkept] at htag
      obtain ⟨hshown, hcaptured⟩ := htag
      rw [← List.cons_append] at hshown
      have hfile := hshown.not_tag hdir
      cases tag <;> simp [Node.isFile, Node.isSymlink, Node.captured] at hfile hkind hcaptured

/-- The tree is the same if and only if it could be restored. -/
theorem sameTree_iff (hportable : ∀ file ∈ packed, ∀ name ∈ file.path, Portable name) :
    SameTree d root restored outDir ↔ Restorable d root earlier outDir := by
  refine ⟨fun hsame => ?_, h.sameTree⟩
  have hfit : Fitting d root earlier outDir := by
    refine ⟨fun path bytes executable hshows name hname => ⟨h.text_of_same hsame hshows name hname, ?_⟩,
      fun path => h.directories_of_same hsame, fun name path node => h.entries_of_same hsame⟩
    exact hportable ⟨path, bytes, executable⟩ ((h.shown _).2 hshows) name hname
  refine ⟨hfit, fun name hkept => ?_⟩
  rw [← h.nodeAt_eq_rebuilt hfit hkept]
  exact h.isCacheDirectory_of_same hsame hkept

end

end Rewritten

/-! ## The record -/

section Record

variable (fromSlice : List UInt8 → Option Json.Value)
  (actionKey : Text → List FileInput → List FileInput → List EnvInput → Text) (candidate : ActionCandidate)
  (fetch : List Text → Option (List (List UInt8))) (normalizer : PathNormalizer)

/-- A valid record whose tree is the archive, all of which can be fetched. -/
structure RecordOf (archive : List UInt8) : Prop where
  valid : validateCandidateManifest actionKey candidate = .ok ()
  blobs : ∃ artifact stdout stderr, candidate.artifacts = [artifact] ∧ artifact.fileName = TREE ∧
    fetch [artifact.digest, candidate.stdout.digest, candidate.stderr.digest] = some [archive, stdout, stderr] ∧
      stdout.length = candidate.stdout.len ∧ stderr.length = candidate.stderr.len

/-- The archive unpacks, and its restore leaves the captured tree. -/
def RoundTrips (archive : List UInt8) (d : Disk) (root : Path) (earlier : Disk) (outDir : Path) : Prop :=
  (∃ files, unpackTree fromSlice archive = .ok files) ∧
    ∃ restored, restore fromSlice actionKey candidate normalizer outDir fetch earlier = .ok restored ∧
      SameTree d root restored.disk outDir

variable {fromSlice actionKey candidate fetch normalizer} {archive : List UInt8}

theorem restore_eq_ok {earlier last : Disk} (hrecord : RecordOf actionKey candidate fetch archive) :
    (∃ result, restore fromSlice actionKey candidate normalizer outDir fetch earlier = .ok result ∧ result.disk = last) ↔
      ∃ files, unpackTree fromSlice archive = .ok files ∧ replaceTree outDir files earlier = .ok last := by
  obtain ⟨artifact, stdout, stderr, hartifacts, htree, hfetch, hstdout, hstderr⟩ := hrecord.blobs
  have hrestore : restore fromSlice actionKey candidate normalizer outDir fetch earlier =
      ((unpackTree fromSlice archive).mapError .unpack >>= fun files => (replaceTree outDir files earlier).map fun d =>
        ⟨d, normalizer.localizeBytes stdout, normalizer.localizeBytes stderr⟩) := by
    unfold restore
    rw [hrecord.valid, hartifacts]
    simp only [htree, hfetch, hstdout, hstderr, refuseIf, okOr, Option.elim, ne_eq, not_true_eq_false, or_self, if_false,
      pure_bind]
    cases unpackTree fromSlice archive with
    | error e => rfl
    | ok files => cases replaceTree outDir files earlier <;> rfl
  rw [hrestore]
  cases hunpack : unpackTree fromSlice archive with
  | error e =>
    refine iff_of_false (fun hok => ?_) fun hok => ?_
    · obtain ⟨result, hresult, -⟩ := hok
      cases hresult
    · obtain ⟨files, hfiles, -⟩ := hok
      cases hfiles
  | ok files =>
    constructor
    · intro hok
      obtain ⟨result, hresult, rfl⟩ := hok
      change (replaceTree outDir files earlier).map _ = .ok result at hresult
      obtain ⟨d, hreplaced, rfl⟩ := map_eq_ok.1 hresult
      exact ⟨files, rfl, hreplaced⟩
    · intro hok
      obtain ⟨unpacked, heq, hreplaced⟩ := hok
      obtain rfl := Except.ok.inj heq
      exact ⟨_, map_eq_ok.2 ⟨last, hreplaced, rfl⟩, rfl⟩

/-- What fits can be written: nothing in it or kept beside it is in the way. -/
theorem replaceTree_ok {d earlier : Disk} {root outDir : Path} {packed : List Packed}
    (hshown : ∀ file : Packed, file ∈ packed ↔ Shows d.nodeAt root file.path (.file file.bytes file.executable))
    (hfit : Fitting d root earlier outDir) (hway : Way earlier.nodeAt outDir) :
    ∃ last, replaceTree outDir (packed.map (·.unpacked)) earlier = .ok last := by
  have hwayCleared : Way (clearTree outDir earlier).nodeAt ([] ++ outDir) := by
    intro prior hprior
    rw [List.nil_append] at hprior
    rw [nodeAt_clearTree, without_other _ (not_entry hprior)]
    exact hway prior hprior
  obtain ⟨cleared, hcleared⟩ := createDirs_ok (clearTree outDir earlier).grounded.root hwayCleared
  have hroot := (createDirs_eq_ok hcleared (clearTree outDir earlier).grounded.root).1
  have hprepared := createDirs_prepared hcleared
  have hpath : ∀ file ∈ packed, file.restored.path = file.path := fun file hfile =>
    restored_path_eq fun name hname => (hfit.names _ _ _ ((hshown file).1 hfile) name hname).1
  have hne : ∀ file ∈ packed.map (·.restored), file.path ≠ [] := by
    intro file hfile
    obtain ⟨source, hsource, rfl⟩ := List.mem_map.1 hfile
    rw [hpath source hsource]
    exact ((hshown source).1 hsource).nonempty
  have hapart : Apart (packed.map (·.restored)) := by
    intro file hfile other hother hbefore
    obtain ⟨source, hsource, rfl⟩ := List.mem_map.1 hfile
    obtain ⟨target, htarget, rfl⟩ := List.mem_map.1 hother
    rw [hpath source hsource, hpath target htarget] at hbefore
    obtain ⟨hnonempty, ⟨rest, hrest⟩, hproper⟩ := hbefore
    -- it would be a directory, and is a file
    have hbelow := (hshown target).1 htarget
    rw [← hrest] at hbelow
    have hdir := hbelow.directory hnonempty fun hnil => hproper (by rw [← hrest, hnil, List.append_nil])
    cases hdir.node.symm.trans ((hshown source).1 hsource).node
  -- where the files come to, nothing was kept
  have hgone : ∀ file ∈ packed, ∀ path, path ≠ [] → path <+: file.restored.path → cleared.nodeAt (outDir ++ path) = none := by
    intro file hfile path hnonempty hprefix
    rw [hpath file hfile] at hprefix
    obtain ⟨name, rest, rfl⟩ := List.exists_cons_of_ne_nil hnonempty
    obtain ⟨more, hmore⟩ := hprefix
    have hshows := (hshown file).1 hfile
    rw [← hmore, List.cons_append] at hshows
    exact hprepared.gone (hfit.entries _ _ _ hshows rfl) rest
  have hready : Ready outDir (packed.map (·.restored)) cleared := by
    refine ⟨hroot, fun file hfile prior hprior => .inl ?_, fun file hfile node hnode => ?_⟩
    · obtain ⟨source, hsource, rfl⟩ := List.mem_map.1 hfile
      exact hgone source hsource prior hprior.1 hprior.2.1
    · have hnonempty := hne file hfile
      obtain ⟨source, hsource, rfl⟩ := List.mem_map.1 hfile
      rw [hgone source hsource _ hnonempty (List.prefix_refl _)] at hnode
      cases hnode
  obtain ⟨last, hlast⟩ := foldlM_restoreFile_ok hready hapart hne fun file => List.mem_map_of_mem
  exact ⟨last, bind_eq_ok.2 ⟨cleared, hcleared, hlast⟩⟩

/-- **What is packed of an OUT_DIR tree unpacks, and its restore, if no file operation fails, leaves the same tree
outside cache directories, if and only if the tree is restorable.** Where no tag is a link, what is kept is told by the
earlier content as it was. -/
theorem restore_roundTrips_iff {d earlier : Disk} {root outDir : Path} (hread : ReadsBack fromSlice d.nodeAt root)
    (hpack : packTree d root = .ok archive) (hrecord : RecordOf actionKey candidate fetch archive)
    (hway : Way earlier.nodeAt outDir) :
    (RoundTrips fromSlice actionKey candidate fetch normalizer archive d root earlier outDir ↔
      Restorable d root earlier outDir) ∧
    ∀ name, (∀ target, earlier.nodeAt (outDir ++ [name] ++ [CACHEDIR_TAG]) ≠ some (.symlink target)) →
      (Kept outDir earlier name ↔ earlier.nodeAt (outDir ++ [name]) = some .directory ∧
        isCacheDirectory earlier.nodeAt (outDir ++ [name]) = true) := by
  refine ⟨?_, fun name hlink => kept_iff hlink⟩
  obtain ⟨packed, hpacked, hunpack⟩ := unpackTree_eq_ok hread hpack
  have hne : ∀ file ∈ packed, file.path ≠ [] := fun file hfile => ((hpacked file).1 hfile).nonempty
  have hrewritten : ∀ restored, restore fromSlice actionKey candidate normalizer outDir fetch earlier = .ok restored →
      (∀ file ∈ packed, ∀ name ∈ file.path, Portable name) ∧
        ∃ cleared, Rewritten d root outDir packed earlier cleared restored.disk := by
    intro restored hrestored
    obtain ⟨files, hfiles, hreplaced⟩ := (restore_eq_ok hrecord).1 ⟨restored, hrestored, rfl⟩
    obtain ⟨cleared, hcleared, hwritten⟩ := bind_eq_ok.1 hreplaced
    obtain ⟨hportable, rfl⟩ := (hunpack files).1 hfiles
    exact ⟨hportable, cleared, hpacked, createDirs_prepared hcleared, foldlM_restoreFile hne hwritten⟩
  constructor
  · intro hround
    obtain ⟨-, restored, hrestored, hsame⟩ := hround
    obtain ⟨hportable, cleared, hdone⟩ := hrewritten restored hrestored
    exact (hdone.sameTree_iff hportable).1 hsame
  · intro hrestorable
    have hportable : ∀ file ∈ packed, ∀ name ∈ file.path, Portable name := fun file hfile name hname =>
      (hrestorable.names _ _ _ ((hpacked file).1 hfile) name hname).2
    have hunpacked := (hunpack _).2 ⟨hportable, rfl⟩
    obtain ⟨last, hlast⟩ := replaceTree_ok hpacked hrestorable.toFitting hway
    obtain ⟨restored, hrestored, -⟩ := (restore_eq_ok hrecord).2 ⟨_, hunpacked, hlast⟩
    obtain ⟨-, cleared, hdone⟩ := hrewritten restored hrestored
    exact ⟨⟨_, hunpacked⟩, restored, hrestored, hdone.sameTree hrestorable⟩

end Record

/-! ## A tree that is restored, and one that is not -/

def outName : FileName := ⟨utf8 "out".toList, by decide⟩
def nestedName : FileName := ⟨utf8 "nested".toList, by decide⟩
def toolName : FileName := ⟨utf8 "tool".toList, by decide⟩
def targetName : FileName := ⟨utf8 "target".toList, by decide⟩

/-- A name with a separator of other systems at its end. -/
def slashName : FileName := ⟨utf8 "a\\".toList, by decide⟩

def toolFile : Packed := ⟨[nestedName, toolName], [1, 10], true⟩

def slashFile : Packed := ⟨[slashName], [], false⟩

def capturedDisk : Disk where
  tree := [([], .directory), ([outName], .directory), ([outName, nestedName], .directory),
    ([outName, nestedName, toolName], .file [1, 10] true)]
  grounded := grounded_of_entries (by decide +kernel) (by decide +kernel)

/-- With a cache directory, and a file to be removed. -/
def earlierDisk : Disk where
  tree := [([], .directory), ([outName], .directory), ([outName, toolName], .file [] false),
    ([outName, targetName], .directory),
    ([outName, targetName, CACHEDIR_TAG], .file [2] false)]
  grounded := grounded_of_entries (by decide +kernel) (by decide +kernel)

def slashDisk : Disk where
  tree := [([], .directory), ([outName], .directory), ([outName, slashName], .file [] false)]
  grounded := grounded_of_entries (by decide +kernel) (by decide +kernel)

def blobKey : Text := List.replicate 64 'a'

/-- A record of a tree, with empty streams. -/
def treeRecord : ActionCandidate where
  protocol := PROTOCOL_VERSION
  staticKey := blobKey
  actionKey := blobKey
  crateName := "build-script:dep".toList
  createdMs := 1
  files := []
  hostFiles := []
  env := []
  artifacts := [⟨TREE, blobKey, false⟩]
  stdout := ⟨blobKey, 0⟩
  stderr := ⟨blobKey, 0⟩
  procMacros := []

theorem treeRecord_recordOf (archive : List UInt8) :
    RecordOf (fun _ _ _ _ => blobKey) treeRecord (fun _ => some [archive, [], []]) archive :=
  ⟨by decide +kernel, _, [], [], rfl, rfl, rfl, rfl, rfl⟩

/-- Reads the header of one file. -/
def readerOf (file : Packed) : List UInt8 → Option Json.Value :=
  fun _ => some (headerValue (relative file.path) file.bytes.length file.executable)

theorem capturedDisk_shows {path : Path} {node : Node} (h : Shows capturedDisk.nodeAt [outName] path node) :
    path = [nestedName] ∧ node = .directory ∨ path = [nestedName, toolName] ∧ node = .file [1, 10] true := by
  have hnode : Trees.nodeAt capturedDisk.tree (outName :: path) = some node := h.node
  have hne := h.nonempty
  simp only [capturedDisk, nodeAt_cons, nodeAt_nil] at hnode
  split at hnode
  · next heq => cases heq
  split at hnode
  · next heq => exact absurd (List.cons.inj heq).2.symm hne
  split at hnode
  · next heq => exact .inl ⟨(List.cons.inj heq).2.symm, (Option.some.inj hnode).symm⟩
  split at hnode
  · next heq => exact .inr ⟨(List.cons.inj heq).2.symm, (Option.some.inj hnode).symm⟩
  · cases hnode

theorem slashDisk_shows {path : Path} {node : Node} (h : Shows slashDisk.nodeAt [outName] path node) :
    path = [slashName] ∧ node = .file [] false := by
  have hnode : Trees.nodeAt slashDisk.tree (outName :: path) = some node := h.node
  have hne := h.nonempty
  simp only [slashDisk, nodeAt_cons, nodeAt_nil] at hnode
  split at hnode
  · next heq => cases heq
  split at hnode
  · next heq => exact absurd (List.cons.inj heq).2.symm hne
  split at hnode
  · next heq => exact ⟨(List.cons.inj heq).2.symm, (Option.some.inj hnode).symm⟩
  · cases hnode

theorem toolFile_shown : Shows capturedDisk.nodeAt [outName] toolFile.path (.file toolFile.bytes toolFile.executable) :=
  ⟨by decide, by decide +kernel, by decide +kernel⟩

/-- The cache directory is kept, and nothing else. -/
theorem kept_earlierDisk : ∀ name, Kept [outName] earlierDisk name → name = targetName := by
  have hchildren : ∀ name ∈ children earlierDisk.tree [outName], Kept [outName] earlierDisk name → name = targetName := by
    decide +kernel
  exact fun name hkept => hchildren name hkept.1 hkept

theorem way_outName {d : Disk} (hout : d.nodeAt [outName] = some .directory) : Way d.nodeAt [outName] :=
  fun _ hprior => .inr (Disk.directory_of_prefix hout hprior)

theorem capturedDisk_restorable : Restorable capturedDisk [outName] earlierDisk [outName] := by
  refine ⟨⟨fun path bytes executable hshows => ?_, fun path hshows => ?_, fun name path node hshows _ => ?_⟩,
    fun name hkept => ?_⟩
  · obtain ⟨-, hnode⟩ | ⟨rfl, -⟩ := capturedDisk_shows hshows
    · cases hnode
    · refine List.forall_mem_cons.2 ⟨⟨⟨"nested".toList, rfl⟩, by decide +kernel⟩, List.forall_mem_singleton.2 ?_⟩
      exact ⟨⟨"tool".toList, rfl⟩, by decide +kernel⟩
  · obtain ⟨rfl, -⟩ | ⟨-, hnode⟩ := capturedDisk_shows hshows
    · exact ⟨[toolName], _, _, toolFile_shown⟩
    · cases hnode
  · have hname : name = nestedName := by
      obtain ⟨hpath, -⟩ | ⟨hpath, -⟩ := capturedDisk_shows hshows <;> exact (List.cons.inj hpath).1
    subst hname
    decide +kernel
  · rw [kept_earlierDisk name hkept]
    decide +kernel

/-- The tool is restored beside the cache directory. -/
theorem capturedDisk_roundTrips : ∃ archive, packTree capturedDisk [outName] = .ok archive ∧
    RoundTrips (readerOf toolFile) (fun _ _ _ _ => blobKey) treeRecord (fun _ => some [archive, [], []]) ⟨[]⟩ archive
      capturedDisk [outName] earlierDisk [outName] := by
  have hpack : packTree capturedDisk [outName] = .ok (TREE_MAGIC ++ toolFile.record) := by
    decide +kernel
  have hread : ReadsBack (readerOf toolFile) capturedDisk.nodeAt [outName] := by
    intro path bytes executable hshows
    obtain ⟨-, hnode⟩ | ⟨rfl, hnode⟩ := capturedDisk_shows hshows
    · cases hnode
    · cases hnode
      rfl
  have hway : Way earlierDisk.nodeAt [outName] := way_outName (by decide +kernel)
  exact ⟨_, hpack, (restore_roundTrips_iff hread hpack (treeRecord_recordOf _) hway).1.2 capturedDisk_restorable⟩

/-- A name that is packed, but not accepted. -/
theorem restore_not_roundTrips : ¬ ∀ (fromSlice : List UInt8 → Option Json.Value)
    (actionKey : Text → List FileInput → List FileInput → List EnvInput → Text) (candidate : ActionCandidate)
    (fetch : List Text → Option (List (List UInt8))) (normalizer : PathNormalizer) (archive : List UInt8) (d : Disk)
    (root : Path) (earlier : Disk) (outDir : Path), ReadsBack fromSlice d.nodeAt root → packTree d root = .ok archive →
    RecordOf actionKey candidate fetch archive → Way earlier.nodeAt outDir →
    RoundTrips fromSlice actionKey candidate fetch normalizer archive d root earlier outDir := by
  intro h
  have hpack : packTree slashDisk [outName] = .ok (TREE_MAGIC ++ slashFile.record) := by
    decide +kernel
  have hread : ReadsBack (readerOf slashFile) slashDisk.nodeAt [outName] := by
    intro path bytes executable hshows
    obtain ⟨rfl, hnode⟩ := slashDisk_shows hshows
    cases hnode
    rfl
  have hfails : ∀ files, unpackTree (readerOf slashFile) (TREE_MAGIC ++ slashFile.record) ≠ .ok files := by
    intro files hfiles
    obtain ⟨packed, hpacked, hunpack⟩ := unpackTree_eq_ok hread hpack
    have hfile : slashFile ∈ packed := (hpacked _).2 ⟨by decide, by decide +kernel, by decide +kernel⟩
    exact absurd (((hunpack files).1 hfiles).1 _ hfile slashName (List.mem_singleton_self _)) (by decide +kernel)
  obtain ⟨⟨files, hfiles⟩, -⟩ := h _ _ _ _ ⟨[]⟩ _ _ _ earlierDisk [outName] hread hpack (treeRecord_recordOf _)
    (way_outName (by decide +kernel))
  exact hfails files hfiles

end Bellows.Cli.ScriptTree
