/-
What a packed tree holds, and that it unpacks to that: the regular files that no
cache directory has in it, under their names as text.
-/
import Bellows.Cli.ScriptTree
import Bellows.Lib.JsonLines
import Bellows.Lib.Segments

namespace Bellows.Cli.ScriptTree

open Text Trees Links Checked Bellows.Core

/-! ## Outside cache directories -/

/-- No directory on the path, from one on, is a cache directory, nor is one at its end. -/
def outside (nodeAt : Path → Option Node) : Path → List FileName → Bool
  | _, [] => true
  | base, name :: rest =>
    !(decide (nodeAt (base ++ [name]) = some .directory) && isCacheDirectory nodeAt (base ++ [name])) &&
      outside nodeAt (base ++ [name]) rest

/-- What a tree has outside its cache directories, at a path from its root. -/
structure Shows (nodeAt : Path → Option Node) (root path : Path) (node : Node) : Prop where
  nonempty : path ≠ []
  outside : outside nodeAt root path = true
  node : nodeAt (root ++ path) = some node

variable {d : Disk} {root base dir path rest : Path} {name : FileName} {nodeAt : Path → Option Node}

theorem Disk.mem_children : name ∈ children d.tree dir ↔ (d.nodeAt (dir ++ [name])).isSome := Trees.mem_children

theorem Disk.directory_of_append (hrest : rest ≠ []) (h : (d.nodeAt (dir ++ rest)).isSome) :
    d.nodeAt dir = some .directory :=
  d.grounded.directory_of_append hrest h

theorem Disk.directory_of_prefix (hpath : d.nodeAt path = some .directory) (hdir : dir <+: path) :
    d.nodeAt dir = some .directory :=
  d.grounded.directory_of_prefix hpath hdir

theorem outside_append : ∀ (path : Path) {base : Path},
    outside nodeAt base (path ++ rest) = (outside nodeAt base path && outside nodeAt (base ++ path) rest)
  | [], base => by simp [outside]
  | name :: path, base => by
    rw [List.cons_append, outside, outside, outside_append path, Bool.and_assoc, List.append_assoc]
    rfl

theorem outside_cons : outside nodeAt base (name :: rest) = true ↔
    ¬ (nodeAt (base ++ [name]) = some .directory ∧ isCacheDirectory nodeAt (base ++ [name]) = true) ∧
      outside nodeAt (base ++ [name]) rest = true := by
  rw [outside, Bool.and_eq_true, Bool.not_eq_true', Bool.and_eq_false_iff, decide_eq_false_iff_not, Bool.eq_false_iff,
    not_and_or]

theorem outside_iff {path base : Path} : outside nodeAt base path = true ↔ ∀ dir, dir ≠ [] → dir <+: path →
    ¬ (nodeAt (base ++ dir) = some .directory ∧ isCacheDirectory nodeAt (base ++ dir) = true) := by
  induction path generalizing base with
  | nil => exact iff_of_true rfl fun dir hdir hpre => absurd (List.prefix_nil.1 hpre) hdir
  | cons name path ih =>
    rw [outside_cons, ih]
    constructor
    · intro h dir hdir hpre
      obtain ⟨first, dir, rfl⟩ := List.exists_cons_of_ne_nil hdir
      obtain ⟨rfl, hrest⟩ := List.cons_prefix_cons.1 hpre
      by_cases hnil : dir = []
      · subst hnil
        exact h.1
      · rw [List.append_cons]
        exact h.2 dir hnil hrest
    · intro h
      refine ⟨h [name] (List.cons_ne_nil _ _) (by simp), fun dir hdir hpre => ?_⟩
      rw [List.append_assoc]
      exact h (name :: dir) (List.cons_ne_nil _ _) (List.cons_prefix_cons.2 ⟨rfl, hpre⟩)

/-- What a path leads through is shown as well. -/
theorem Shows.directory {node : Node} (h : Shows d.nodeAt root (path ++ rest) node) (hpath : path ≠ [])
    (hrest : rest ≠ []) :
    Shows d.nodeAt root path .directory := by
  have hout := h.outside
  rw [outside_append, Bool.and_eq_true] at hout
  refine ⟨hpath, hout.1, Disk.directory_of_append hrest ?_⟩
  rw [List.append_assoc, h.node]
  rfl

/-! ## What is collected -/

theorem collectEntry_eq_ok {collect : Path → Except PackError (List (Text × Path))} {files : List (Text × Path)}
    (h : collectEntry d root collect path = .ok files) (file : Text × Path) :
    file ∈ files ↔ (d.nodeAt (root ++ path) = some .directory ∧ isCacheDirectory d.nodeAt (root ++ path) = false ∧
        ∃ inner, collect path = .ok inner ∧ file ∈ inner) ∨
      (∃ bytes executable, d.nodeAt (root ++ path) = some (.file bytes executable)) ∧ file = (relative path, path) := by
  unfold collectEntry at h
  cases hnode : d.nodeAt (root ++ path) with
  | none =>
    rw [hnode] at h
    obtain rfl := pure_eq_ok.1 h
    simp
  | some node =>
    rw [hnode] at h
    cases node with
    | symlink target => cases h
    | special =>
      obtain rfl := pure_eq_ok.1 h
      simp
    | file bytes executable =>
      obtain rfl := pure_eq_ok.1 h
      simp
    | directory =>
      dsimp only at h
      split at h
      · next hcache =>
        obtain rfl := pure_eq_ok.1 h
        simp [hcache]
      · next hcache => simp [h, hcache]

theorem mem_collectTree {fuel : Nat} {files : List (Text × Path)} (h : collectTree d root fuel dir = .ok files)
    (file : Text × Path) : file ∈ files ↔ ∃ rest bytes executable, rest ≠ [] ∧ file = (relative (dir ++ rest), dir ++ rest) ∧
      outside d.nodeAt (root ++ dir) rest = true ∧ d.nodeAt (root ++ dir ++ rest) = some (.file bytes executable) := by
  induction fuel generalizing dir files with
  | zero => cases h
  | succ fuel ih =>
    rw [collectTree] at h
    split at h
    · obtain ⟨hall, honly⟩ := mem_foldlM_append h
      constructor
      · intro hfile
        obtain ⟨name, hname, inner, hinner, hmem⟩ := (honly file hfile).resolve_left (List.not_mem_nil)
        rcases (collectEntry_eq_ok hinner file).1 hmem with ⟨hdir, hcache, deep, hdeep, hmem⟩ | ⟨⟨bytes, x, hnode⟩, rfl⟩
        · obtain ⟨rest, bytes, x, -, hfile, hout, hnode⟩ := (ih hdeep).1 hmem
          rw [← List.append_assoc] at hcache hout
          refine ⟨name :: rest, bytes, x, List.cons_ne_nil _ _, by simpa using hfile, outside_cons.2 ⟨?_, hout⟩,
            by simpa using hnode⟩
          exact fun hboth => Bool.false_ne_true (hcache.symm.trans hboth.2)
        · rw [← List.append_assoc] at hnode
          refine ⟨[name], bytes, x, List.cons_ne_nil _ _, rfl, outside_cons.2 ⟨fun hboth => ?_, rfl⟩, hnode⟩
          rw [hnode] at hboth
          cases hboth.1
      · intro hshown
        obtain ⟨rest, bytes, x, hrest, rfl, hout, hnode⟩ := hshown
        obtain ⟨name, rest, rfl⟩ := List.exists_cons_of_ne_nil hrest
        obtain ⟨hcache, hout⟩ := outside_cons.1 hout
        have hthere : d.nodeAt (root ++ dir ++ [name]) = some .directory ∨ rest = [] := by
          refine or_iff_not_imp_right.2 fun hne => Disk.directory_of_append hne ?_
          rw [List.append_assoc _ [name], List.singleton_append, hnode]
          rfl
        have hname : name ∈ children d.tree (root ++ dir) := by
          rw [Disk.mem_children]
          rcases hthere with hdir | rfl
          · rw [hdir]
            rfl
          · rw [hnode]
            rfl
        obtain ⟨inner, hinner, hmem⟩ := hall name hname
        refine hmem _ ((collectEntry_eq_ok hinner _).2 ?_)
        by_cases hnil : rest = []
        · subst hnil
          exact .inr ⟨⟨bytes, x, by simpa using hnode⟩, rfl⟩
        · have hdir := hthere.resolve_right hnil
          have hopen : isCacheDirectory d.nodeAt (root ++ (dir ++ [name])) = false := by
            rw [← List.append_assoc]
            exact Bool.eq_false_iff.2 fun htrue => hcache ⟨hdir, htrue⟩
          rw [List.append_assoc] at hdir
          refine .inl ⟨hdir, hopen, ?_⟩
          cases hdeep : collectTree d root fuel (dir ++ [name]) with
          | error e => simp [collectEntry, hdir, hopen, hdeep] at hinner
          | ok deep =>
            refine ⟨deep, rfl, (ih hdeep).2 ⟨rest, bytes, x, hnil, by simp, ?_, by simpa using hnode⟩⟩
            rwa [← List.append_assoc]
    · cases h

/-- Walking as deep as the tree is is deep enough. -/
theorem collectTree_ne_outOfFuel {fuel : Nat} (hdir : (d.nodeAt (root ++ dir)).isSome)
    (hfuel : depth d.tree < (root ++ dir).length + fuel) : collectTree d root fuel dir ≠ .error .outOfFuel := by
  induction fuel generalizing dir with
  | zero => exact absurd (length_le_depth hdir) (by omega)
  | succ fuel ih =>
    rw [collectTree]
    split
    · refine foldlM_ne_error fun files name hname => ?_
      have hnext : collectEntry d root (collectTree d root fuel) (dir ++ [name]) ≠ .error .outOfFuel := by
        rw [Disk.mem_children, List.append_assoc] at hname
        unfold collectEntry
        split
        · simp [throw, throwThe, MonadExceptOf.throw]
        · split
          · simp [pure, Except.pure]
          · refine ih hname ?_
            simp only [List.length_append, List.length_singleton] at hfuel ⊢
            omega
        · simp [pure, Except.pure]
        · simp [pure, Except.pure]
      intro hbind
      cases hentry : collectEntry d root (collectTree d root fuel) (dir ++ [name]) with
      | error e =>
        rw [hentry] at hbind
        exact hnext (hentry.trans hbind)
      | ok inner =>
        rw [hentry] at hbind
        cases hbind
    · simp [throw, throwThe, MonadExceptOf.throw]

/-! ## What is packed -/

/-- A file of a packed tree. -/
@[ext] structure Packed where
  path : Path
  bytes : List UInt8
  executable : Bool

def Packed.record (file : Packed) : List UInt8 :=
  header (relative file.path) file.bytes.length file.executable ++ [10] ++ file.bytes

/-- What of the files is appended to an archive. -/
theorem foldlM_packFile {files : List (Text × Path)} {archive archive' : List UInt8}
    (hfiles : ∀ file ∈ files, file.1 = relative file.2) (h : files.foldlM (packFile d root) archive = .ok archive') :
    ∃ packed : List Packed, packed.map (·.path) = files.map (·.2) ∧ archive' = archive ++ packed.flatMap (·.record) ∧
      ∀ file ∈ packed, d.nodeAt (root ++ file.path) = some (.file file.bytes file.executable) ∧
        file.bytes.length ≤ MAX_TREE_BYTES := by
  induction files generalizing archive with
  | nil =>
    obtain rfl := pure_eq_ok.1 h
    exact ⟨[], rfl, by simp, by simp⟩
  | cons file files ih =>
    rw [List.foldlM_cons] at h
    obtain ⟨grown, hgrown, h⟩ := bind_eq_ok.1 h
    obtain ⟨packed, hpaths, harchive, hpacked⟩ :=
      ih (fun other hother => hfiles other (List.mem_cons_of_mem _ hother)) h
    unfold packFile at hgrown
    split at hgrown
    · next bytes executable hnode =>
      dsimp only at hgrown
      split at hgrown
      · cases hgrown
      · next hsize =>
        obtain rfl := pure_eq_ok.1 hgrown
        refine ⟨⟨file.2, bytes, executable⟩ :: packed, by simp [hpaths], ?_,
          List.forall_mem_cons.2 ⟨⟨hnode, ?_⟩, hpacked⟩⟩
        · rw [harchive, hfiles file List.mem_cons_self]
          simp [Packed.record]
        · simp only [List.length_append] at hsize
          dsimp only
          omega
    · cases hgrown

/-- The archive is the records of the regular files outside cache directories. -/
theorem packTree_eq_ok {archive : List UInt8} (h : packTree d root = .ok archive) :
    ∃ packed : List Packed, archive = TREE_MAGIC ++ packed.flatMap (·.record) ∧
      (∀ file ∈ packed, file.bytes.length ≤ MAX_TREE_BYTES) ∧
      ∀ file : Packed, file ∈ packed ↔ Shows d.nodeAt root file.path (.file file.bytes file.executable) := by
  obtain ⟨files, hfiles, h⟩ := bind_eq_ok.1 h
  have hmem : ∀ file, file ∈ sortFiles files ↔ ∃ bytes executable, file.1 = relative file.2 ∧
      Shows d.nodeAt root file.2 (.file bytes executable) := by
    intro file
    rw [sortFiles, List.mem_insertionSort, mem_collectTree hfiles]
    constructor
    · intro hfile
      obtain ⟨rest, bytes, x, hrest, rfl, hout, hnode⟩ := hfile
      rw [List.append_nil] at hout hnode
      exact ⟨bytes, x, rfl, hrest, hout, hnode⟩
    · intro hfile
      obtain ⟨bytes, x, hname, hshows⟩ := hfile
      refine ⟨file.2, bytes, x, hshows.nonempty, Prod.ext hname rfl, ?_, ?_⟩
      · rw [List.append_nil]
        exact hshows.outside
      · rw [List.append_nil]
        exact hshows.node
  have hrelative : ∀ file ∈ sortFiles files, file.1 = relative file.2 := by
    intro file hfile
    obtain ⟨bytes, x, hname, -⟩ := (hmem file).1 hfile
    exact hname
  obtain ⟨packed, hpaths, harchive, hpacked⟩ := foldlM_packFile hrelative h
  refine ⟨packed, harchive, fun file hfile => (hpacked file hfile).2, fun file => ⟨fun hfile => ?_, fun hshows => ?_⟩⟩
  · have hpath : file.path ∈ (sortFiles files).map (·.2) := hpaths ▸ List.mem_map_of_mem hfile
    obtain ⟨named, hnamed, hsame⟩ := List.mem_map.1 hpath
    obtain ⟨bytes, x, -, hshows⟩ := (hmem named).1 hnamed
    rw [hsame] at hshows
    exact ⟨hshows.nonempty, hshows.outside, (hpacked file hfile).1⟩
  · have hnamed : (relative file.path, file.path) ∈ sortFiles files := (hmem _).2 ⟨_, _, rfl, hshows⟩
    have hpath : file.path ∈ packed.map (·.path) := hpaths ▸ List.mem_map_of_mem hnamed
    obtain ⟨other, hother, hsame⟩ := List.mem_map.1 hpath
    have hnode := (hpacked other hother).1
    rw [hsame, hshows.node] at hnode
    simp only [Option.some.injEq, Node.file.injEq] at hnode
    obtain rfl : file = other := Packed.ext hsame.symm hnode.1 hnode.2
    exact hother

/-- No tree is too deep for the bound that the walk is given. -/
theorem packTree_ne_outOfFuel : packTree d root ≠ .error .outOfFuel := by
  unfold packTree
  cases hfiles : collectTree d root (depth d.tree + 1) [] with
  | ok files =>
    refine foldlM_ne_error fun archive file _ => ?_
    unfold packFile
    split
    · dsimp only
      split <;> simp [throw, throwThe, MonadExceptOf.throw, pure, Except.pure]
    · simp [throw, throwThe, MonadExceptOf.throw]
  | error e =>
    intro herror
    cases herror
    cases hroot : (d.nodeAt (root ++ [])).isSome with
    | true => exact collectTree_ne_outOfFuel hroot (by omega) hfiles
    | false =>
      have hnone : d.nodeAt (root ++ []) = none := by simpa using hroot
      rw [collectTree, if_neg (by rw [hnone]; simp)] at hfiles
      cases hfiles

/-! ## Names as text -/

theorem not_mem_lossy {bytes : List UInt8} {c : Char} {b : UInt8} (hc : String.utf8EncodeChar c = [b]) (hne : c ≠ '\uFFFD')
    (h : b ∉ bytes) : c ∉ Utf8.lossy bytes :=
  fun hmem => h (Utf8.of_mem_lossy hmem hne b (by rw [hc]; exact List.mem_singleton_self b))

theorem lossy_ne_nil (name : FileName) : Utf8.lossy name.1 ≠ [] := by
  rcases Utf8.lossy_cases name.2.1 with ⟨c, rest, -, h⟩ | ⟨dropped, rest, -, -, h⟩
  · simp [h]
  · simp [h]

theorem slash_not_mem_lossy (name : FileName) : '/' ∉ Utf8.lossy name.1 :=
  not_mem_lossy (by decide) (by decide) name.2.2.2.1

/-- What is written as text without replacements is that text. -/
theorem eq_of_lossy {bytes : List UInt8} {text : Text} (h : Utf8.lossy bytes = text) (htext : '\uFFFD' ∉ text) :
    bytes = utf8 text := by
  subst h
  exact (Utf8.encode_lossy htext).symm

theorem plainName_lossy (name : FileName) : PlainName (utf8 (Utf8.lossy name.1)) := by
  have hdots : ∀ dots : Text, '\uFFFD' ∉ dots → name.1 ≠ utf8 dots → utf8 (Utf8.lossy name.1) ≠ utf8 dots := by
    intro dots hdots hne heq
    exact hne (eq_of_lossy (Utf8.encode_injective heq) hdots)
  refine ⟨fun hnil => ?_, ?_, ?_, hdots ['.'] (by decide) name.2.2.2.2.1, hdots ['.', '.'] (by decide) name.2.2.2.2.2⟩
  · have hempty : utf8 (Utf8.lossy name.1) = utf8 [] := hnil
    exact lossy_ne_nil name (Utf8.encode_injective hempty)
  · exact Utf8.not_mem_encode (c := '\x00') rfl (by decide) (not_mem_lossy (by decide) (by decide) name.2.2.1)
  · exact Utf8.not_mem_encode (c := '/') rfl (by decide) (slash_not_mem_lossy name)

/-- A name as it is written, as a name again. -/
def restoredName (name : FileName) : FileName := ⟨utf8 (Utf8.lossy name.1), plainName_lossy name⟩

theorem restoredName_eq_iff {name : FileName} : restoredName name = name ↔ ∃ text, name.1 = utf8 text := by
  constructor
  · intro h
    exact ⟨Utf8.lossy name.1, (congrArg Subtype.val h).symm⟩
  · intro h
    obtain ⟨text, htext⟩ := h
    have hsame : utf8 (Utf8.lossy name.1) = name.1 := by
      rw [htext]
      exact congrArg utf8 (Utf8.lossy_encode text)
    exact Subtype.ext hsame

/-- No other name is written as the tag's. -/
theorem restoredName_eq_tag {name : FileName} (h : restoredName name = CACHEDIR_TAG) : name = CACHEDIR_TAG := by
  have htext : Utf8.lossy name.1 = "CACHEDIR.TAG".toList := Utf8.encode_injective (congrArg Subtype.val h)
  exact Subtype.ext (eq_of_lossy htext (by decide))

theorem mapM_of?_lossy (path : Path) :
    (path.map fun name => Utf8.lossy name.1).mapM (fun segment => FileName.of? (utf8 segment)) =
      some (path.map restoredName) := by
  induction path with
  | nil => rfl
  | cons name path ih =>
    have hname : FileName.of? (utf8 (Utf8.lossy name.1)) = some (restoredName name) := dif_pos (plainName_lossy name)
    rw [List.map_cons, List.mapM_cons, hname, ih]
    rfl

/-! ## Paths that are accepted -/

/-- No segment of a name, on any system, is empty or leads elsewhere. -/
def Portable (name : FileName) : Prop :=
  ∀ segment ∈ (Utf8.lossy name.1).splitOnP (· == '\\'), forbiddenSegment segment = false

instance (name : FileName) : Decidable (Portable name) := by
  unfold Portable
  infer_instance

theorem splitOnP_relative {path : Path} (hne : path ≠ []) :
    (relative path).splitOnP isSeparator = path.flatMap fun name => (Utf8.lossy name.1).splitOnP (· == '\\') := by
  have hname : ∀ text : Text, '/' ∉ text → text.splitOnP isSeparator = text.splitOnP (· == '\\') := by
    intro text htext
    induction text with
    | nil => rfl
    | cons c text ih =>
      rw [List.mem_cons, not_or] at htext
      have hc : isSeparator c = (c == '\\') := by simp [isSeparator, Ne.symm htext.1]
      rw [List.splitOnP_cons_eq_if_modifyHead, List.splitOnP_cons_eq_if_modifyHead, ih htext.2, hc]
  unfold relative
  induction path with
  | nil => exact absurd rfl hne
  | cons name path ih =>
    cases path with
    | nil => simp [hname _ (slash_not_mem_lossy name)]
    | cons next path =>
      have hjoin : ['/'].intercalate ((name :: next :: path).map fun name => Utf8.lossy name.1) =
          Utf8.lossy name.1 ++ '/' :: ['/'].intercalate ((next :: path).map fun name => Utf8.lossy name.1) := by
        simp [List.intercalate]
      rw [hjoin, List.splitOnP_append_cons _ _ rfl, hname _ (slash_not_mem_lossy name), ih (List.cons_ne_nil _ _)]
      rfl

theorem validateRelativePath_relative {path : Path} (hne : path ≠ []) {segments : List Text} :
    validateRelativePath (relative path) = .ok segments ↔
      segments = (path.map fun name => Utf8.lossy name.1) ∧ ∀ name ∈ path, Portable name := by
  have hstart : ∃ c rest, relative path = c :: rest ∧ c ≠ '/' := by
    obtain ⟨name, path, rfl⟩ := List.exists_cons_of_ne_nil hne
    obtain ⟨c, text, htext⟩ := List.exists_cons_of_ne_nil (lossy_ne_nil name)
    have hslash : c ≠ '/' := fun heq => slash_not_mem_lossy name (by rw [htext, heq]; exact List.mem_cons_self)
    cases path with
    | nil => exact ⟨c, text, by simp [relative, htext], hslash⟩
    | cons next path => exact ⟨c, _, by simp [relative, List.intercalate, htext]; rfl, hslash⟩
  have hrelative : ¬ (relative path = [] ∨ (relative path).head? = some '/') := by
    obtain ⟨c, rest, heq, hslash⟩ := hstart
    simp [heq, hslash]
  have hsplit : (relative path).splitOnP (· == '/') = path.map fun name => Utf8.lossy name.1 := by
    refine List.splitOn_intercalate '/' (fun text htext => ?_) fun hnil => hne (List.map_eq_nil_iff.1 hnil)
    obtain ⟨name, -, rfl⟩ := List.mem_map.1 htext
    exact slash_not_mem_lossy name
  have hforbidden : ((relative path).splitOnP isSeparator).any forbiddenSegment = true ↔
      ¬ ∀ name ∈ path, Portable name := by
    rw [splitOnP_relative hne, List.any_eq_true]
    constructor
    · intro hany hall
      obtain ⟨segment, hsegment, htrue⟩ := hany
      obtain ⟨name, hname, hsegment⟩ := List.mem_flatMap.1 hsegment
      exact Bool.false_ne_true ((hall name hname segment hsegment).symm.trans htrue)
    · intro hnot
      simp only [Portable, not_forall, Bool.not_eq_false] at hnot
      obtain ⟨name, hname, segment, hsegment, htrue⟩ := hnot
      exact ⟨segment, List.mem_flatMap.2 ⟨name, hname, hsegment⟩, htrue⟩
  unfold validateRelativePath
  rw [if_neg hrelative]
  split
  · next hany =>
    constructor
    · intro herror
      cases herror
    · exact fun hall => absurd hall.2 (hforbidden.1 hany)
  · next hany =>
    rw [pure_eq_ok, hsplit, eq_comm, and_iff_left (by_contra fun hnot => hany (hforbidden.2 hnot))]

/-! ## What is unpacked -/

/-- The value of a file's header. -/
def headerValue (path : Text) (len : Nat) (executable : Bool) : Json.Value :=
  .object [("executable".toList, .bool executable), ("len".toList, .number (Archive.decimal len)),
    ("path".toList, .string path)]

variable {fromSlice : List UInt8 → Option Json.Value} {file : Packed}

theorem newline_not_mem_header (path : Text) (len : Nat) (executable : Bool) : 10 ∉ header path len executable := by
  have hexecutable : Json.OneLine (Json.bool executable) := by
    cases executable with
    | true => exact ⟨"true".toList, by decide, by decide, by decide⟩
    | false => exact ⟨"false".toList, by decide, by decide, by decide⟩
  have hlen : Json.OneLine (jsonNumber len) := by
    refine ⟨Archive.decimal len, rfl, fun hmem => ?_, fun hmem => ?_⟩
    · exact absurd (Archive.isDigit_of_mem_decimal hmem) (by decide)
    · exact absurd (Archive.isDigit_of_mem_decimal hmem) (by decide)
  have hmembers : ∀ m ∈ [jsonField "executable" (Json.bool executable), jsonField "len" (jsonNumber len),
      jsonField "path" (jsonString path)], Json.OneLine (Json.member m.1 m.2) := by
    intro m hm
    simp only [List.mem_cons, List.not_mem_nil, or_false] at hm
    rcases hm with rfl | rfl | rfl
    · exact Json.oneLine_member _ hexecutable
    · exact Json.oneLine_member _ hlen
    · exact Json.oneLine_member _ (Json.oneLine_string path)
  obtain ⟨rest, htext, hbreak, -⟩ := Json.exists_text_object hmembers
  rw [header, htext]
  exact Utf8.not_mem_encode (c := '\n') rfl (by decide) (by simpa using hbreak)

theorem asU64_number {len : Nat} (h : len < 2 ^ 64) : asU64 (.number (Archive.decimal len)) = some len :=
  Archive.foldlM_decimal h

/-- A file is unpacked from its record, if its path is accepted. -/
theorem unpackFile_record (hread : fromSlice (header (relative file.path) file.bytes.length file.executable) =
      some (headerValue (relative file.path) file.bytes.length file.executable))
    (hlen : file.bytes.length < 2 ^ 64) (rest : List UInt8) :
    unpackFile fromSlice (file.record ++ rest) =
      ((validateRelativePath (relative file.path)).mapError .failed).map fun path =>
        (⟨path, file.executable, file.bytes⟩, rest) := by
  have hnewline := newline_not_mem_header (relative file.path) file.bytes.length file.executable
  have hrecord : file.record ++ rest =
      header (relative file.path) file.bytes.length file.executable ++ 10 :: (file.bytes ++ rest) := by
    simp [Packed.record]
  rw [hrecord]
  generalize header (relative file.path) file.bytes.length file.executable = head at hread hnewline
  have hstop : (head ++ 10 :: (file.bytes ++ rest)).findIdx? (· == 10) = some head.length := by
    have hnone : head.findIdx? (· == 10) = none := by
      rw [List.findIdx?_eq_none_iff]
      intro b hb
      exact beq_eq_false_iff_ne.2 fun heq => hnewline (heq ▸ hb)
    rw [List.findIdx?_append, hnone, List.findIdx?_cons, if_pos (by rfl)]
    simp
  have htake : (head ++ 10 :: (file.bytes ++ rest)).take head.length = head := List.take_left
  have hdrop : (head ++ 10 :: (file.bytes ++ rest)).drop (head.length + 1) = file.bytes ++ rest := by
    rw [← List.drop_drop, List.drop_left]
    rfl
  have hpath (path : Text) (len : Nat) (executable : Bool) :
      asStr (index (headerValue path len executable) "path") = some path := rfl
  have hnumber (path : Text) (len : Nat) (executable : Bool) :
      index (headerValue path len executable) "len" = .number (Archive.decimal len) := rfl
  have hbool (path : Text) (len : Nat) (executable : Bool) :
      (asBool (index (headerValue path len executable) "executable")).getD false = executable := rfl
  cases hvalid : validateRelativePath (relative file.path) with
  | error e =>
    simp [unpackFile, hstop, htake, hread, hpath, hvalid, okOr, bind, Except.bind, pure, Except.pure,
      Except.mapError, Except.map]
  | ok path =>
    simp [unpackFile, hstop, htake, hread, hpath, hvalid, hnumber, hbool, asU64_number hlen, hdrop, okOr, refuseIf,
      bind, Except.bind, pure, Except.pure, Except.mapError, Except.map]

/-- The reader reads the headers of a tree's files back. -/
def ReadsBack (fromSlice : List UInt8 → Option Json.Value) (nodeAt : Path → Option Node) (root : Path) : Prop :=
  ∀ path bytes executable, Shows nodeAt root path (.file bytes executable) →
    fromSlice (header (relative path) bytes.length executable) = some (headerValue (relative path) bytes.length executable)

/-- What a file is unpacked as. -/
def Packed.unpacked (file : Packed) : TreeFile :=
  ⟨file.path.map fun name => Utf8.lossy name.1, file.executable, file.bytes⟩

/-- The records unpack to their files, if all names are accepted. -/
theorem unpackFrom_records {packed : List Packed} {files : List TreeFile}
    (h : ∀ file ∈ packed, file.path ≠ [] ∧ file.bytes.length < 2 ^ 64 ∧
      fromSlice (header (relative file.path) file.bytes.length file.executable) =
        some (headerValue (relative file.path) file.bytes.length file.executable)) :
    unpackFrom fromSlice (packed.flatMap (·.record)) = .ok files ↔
      (∀ file ∈ packed, ∀ name ∈ file.path, Portable name) ∧ files = packed.map (·.unpacked) := by
  induction packed generalizing files with
  | nil =>
    rw [List.flatMap_nil, unpackFrom, if_pos rfl, pure_eq_ok]
    simp [eq_comm]
  | cons file packed ih =>
    obtain ⟨⟨hpath, hlen, hread⟩, hpacked⟩ := List.forall_mem_cons.1 h
    have hne : file.record ++ packed.flatMap (·.record) ≠ [] := by simp [Packed.record]
    have hfile := unpackFile_record hread hlen (packed.flatMap (·.record))
    rw [List.flatMap_cons, unpackFrom, if_neg hne]
    by_cases hportable : ∀ name ∈ file.path, Portable name
    · rw [(validateRelativePath_relative hpath).2 ⟨rfl, hportable⟩] at hfile
      split
      · next heq =>
        rw [hfile] at heq
        cases heq
      · next unpacked rest heq =>
        rw [hfile] at heq
        obtain ⟨rfl, rfl⟩ := Prod.mk.inj (Except.ok.inj heq)
        rw [map_eq_ok, List.forall_mem_cons, and_iff_right hportable]
        constructor
        · intro hrest
          obtain ⟨rest, hrest, rfl⟩ := hrest
          obtain ⟨hall, rfl⟩ := (ih hpacked).1 hrest
          exact ⟨hall, rfl⟩
        · intro hall
          exact ⟨_, (ih hpacked).2 ⟨hall.1, rfl⟩, hall.2.symm⟩
    · refine iff_of_false (fun hok => ?_) fun hall => hportable (hall.1 file List.mem_cons_self)
      cases hvalid : validateRelativePath (relative file.path) with
      | ok segments => exact hportable ((validateRelativePath_relative hpath).1 hvalid).2
      | error e =>
        rw [hvalid] at hfile
        split at hok
        · cases hok
        · next heq =>
          rw [hfile] at heq
          cases heq

/-- An archive unpacks to the files packed, if all names are accepted. -/
theorem unpackTree_eq_ok {archive : List UInt8} (hread : ReadsBack fromSlice d.nodeAt root)
    (hpack : packTree d root = .ok archive) : ∃ packed : List Packed,
      (∀ file : Packed, file ∈ packed ↔ Shows d.nodeAt root file.path (.file file.bytes file.executable)) ∧
      ∀ files, unpackTree fromSlice archive = .ok files ↔
        (∀ file ∈ packed, ∀ name ∈ file.path, Portable name) ∧ files = packed.map (·.unpacked) := by
  obtain ⟨packed, rfl, hsize, hpacked⟩ := packTree_eq_ok hpack
  refine ⟨packed, hpacked, fun files => ?_⟩
  rw [unpackTree, stripPrefix?_append]
  refine unpackFrom_records fun file hfile => ?_
  have hshows := (hpacked file).1 hfile
  exact ⟨hshows.nonempty, Nat.lt_of_le_of_lt (hsize file hfile) (by decide), hread _ _ _ hshows⟩

end Bellows.Cli.ScriptTree
