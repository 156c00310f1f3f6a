/-
The tree of a build script's OUT_DIR: how it is packed (`pack_tree`), unpacked
again (`unpack_tree`) and put in the place of another (`restore`), with the names
of its files as the bytes that they are.

A disk is the tree of the whole file system, which nothing else changes. A path
to OUT_DIR has no links on its way. Every operation succeeds that can, a name
with a NUL byte cannot; the temporary file of `atomic_write` is left out, which
is renamed at once. JSON is read by a parameter. What a restore that failed leaves
behind is not modelled.
-/
import Bellows.Cli.Archive
import Bellows.Cli.Destination
import Bellows.Core.DeclaredKey
import Bellows.Lib.Directories

namespace Bellows.Cli.ScriptTree

open Text Trees Links Checked Bellows.Core

/-! ## Disks -/

/-- What a name may be. -/
def PlainName (bytes : List UInt8) : Prop :=
  bytes ≠ [] ∧ 0 ∉ bytes ∧ 47 ∉ bytes ∧ bytes ≠ [46] ∧ bytes ≠ [46, 46]

instance (bytes : List UInt8) : Decidable (PlainName bytes) := by
  unfold PlainName
  infer_instance

abbrev FileName := {bytes : List UInt8 // PlainName bytes}

abbrev Path := List FileName

def FileName.of? (bytes : List UInt8) : Option FileName := if h : PlainName bytes then some ⟨bytes, h⟩ else none

inductive Node where
  | directory
  /-- With one of the executable bits, or none. -/
  | file (bytes : List UInt8) (executable : Bool)
  | symlink (target : List (Component FileName))
  | special
  deriving DecidableEq

structure Disk where
  tree : Tree FileName Node
  grounded : Grounded .directory tree

namespace Disk

variable (d : Disk) (path : Path)

def nodeAt : Option Node := Trees.nodeAt d.tree path

/-- A node in a directory, in the place of one that is no directory. -/
def put? (node : Node) : Option Disk :=
  if h : d.nodeAt path.dropLast = some .directory ∧ d.nodeAt path ≠ some .directory then
    some ⟨put d.tree path node, d.grounded.put h.1 h.2⟩
  else none

/-- `remove_file`, `remove_dir_all` -/
def remove : Disk := if h : path ≠ [] then ⟨prune d.tree path, d.grounded.prune h⟩ else d

/-- `create_dir` -/
def createDir : Option Disk := if d.nodeAt path = none then d.put? path .directory else none

end Disk

def kindOf : Node → Kind FileName
  | .directory => .directory
  | .symlink target => .link target
  | .file _ _ | .special => .other

/-- The node that a path leads to. -/
def followed (nodeAt : Path → Option Node) (path : Path) : Option Node :=
  (resolve (fun place => (nodeAt place).map kindOf) Destination.MAX_LINKS [] (path.map .normal)).bind nodeAt

def Node.isFile : Node → Bool
  | .file _ _ => true
  | _ => false

def Node.isSymlink : Node → Bool
  | .symlink _ => true
  | _ => false

def CACHEDIR_TAG : FileName := ⟨utf8 "CACHEDIR.TAG".toList, by decide⟩

/-- `is_cache_directory`, by what is at which path. -/
def isCacheDirectory (nodeAt : Path → Option Node) (path : Path) : Bool :=
  (followed nodeAt (path ++ [CACHEDIR_TAG])).any (·.isFile)

/-! ## Packing -/

def TREE_MAGIC : List UInt8 := utf8 "BELLOWS-TREE-1\n".toList

def MAX_TREE_BYTES : Nat := 512 * 1024 * 1024

inductive PackError where
  /-- `NotStored`: `OUT_DIR contains a symlink` -/
  | symlink (path : Path)
  /-- `NotStored`: `OUT_DIR exceeds the stored tree limit` -/
  | tooLarge
  | failed (call : String) (path : Path)
  | outOfFuel
  deriving DecidableEq

/-- A path from the root of the tree as it is written. -/
def relative (path : Path) : Text := ['/'].intercalate (path.map fun name => Utf8.lossy name.1)

section Pack

variable (d : Disk) (root : Path)

/-- One round of the loop of `collect_tree`. -/
def collectEntry (collect : Path → Except PackError (List (Text × Path))) (path : Path) :
    Except PackError (List (Text × Path)) :=
  match d.nodeAt (root ++ path) with
  | some (.symlink _) => throw (.symlink (root ++ path))
  | some .directory => if isCacheDirectory d.nodeAt (root ++ path) then return [] else collect path
  | some (.file _ _) => return [(relative path, path)]
  | _ => return []

/-- `collect_tree`, of a directory with its path from the root. -/
def collectTree : Nat → Path → Except PackError (List (Text × Path))
  | 0, _ => throw .outOfFuel
  | fuel + 1, dir =>
    if d.nodeAt (root ++ dir) = some .directory then
      (children d.tree (root ++ dir)).foldlM
        (fun files name => do return files ++ (← collectEntry d root (collectTree fuel) (dir ++ [name]))) []
    else throw (.failed "read_dir" (root ++ dir))

def sortFiles (files : List (Text × Path)) : List (Text × Path) :=
  files.insertionSort fun a b => a.1 < b.1 ∨ a.1 = b.1 ∧ ¬ b.2.map (·.1) < a.2.map (·.1)

/-- The members in the order of their names. -/
def header (path : Text) (len : Nat) (executable : Bool) : List UInt8 :=
  Json.object [jsonField "executable" (Json.bool executable), jsonField "len" (jsonNumber len),
    jsonField "path" (jsonString path)]

/-- One round of the loop of `pack_tree`. -/
def packFile (archive : List UInt8) (file : Text × Path) : Except PackError (List UInt8) :=
  match d.nodeAt (root ++ file.2) with
  | some (.file bytes executable) =>
    let archive := archive ++ header file.1 bytes.length executable ++ [10] ++ bytes
    if archive.length > MAX_TREE_BYTES then throw .tooLarge else return archive
  | _ => throw (.failed "read" (root ++ file.2))

def packTree : Except PackError (List UInt8) := do
  let files ← collectTree d root (depth d.tree + 1) []
  (sortFiles files).foldlM (packFile d root) TREE_MAGIC

end Pack

/-! ## Unpacking -/

inductive UnpackError where
  | failed (message : String)
  /-- The error of `serde_json`. -/
  | json
  deriving DecidableEq, Repr

structure TreeFile where
  path : List Text
  executable : Bool
  bytes : List UInt8
  deriving DecidableEq, Repr

/-- `header[name]` -/
def index (header : Json.Value) (name : String) : Json.Value :=
  match header with
  | .object members => (members.lookup name.toList).getD .null
  | _ => .null

def asStr : Json.Value → Option Text
  | .string text => some text
  | _ => none

def asU64 : Json.Value → Option Nat
  | .number digits => digits.foldlM Archive.pushDecimal 0
  | _ => none

def asBool : Json.Value → Option Bool
  | .bool b => some b
  | _ => none

section Unpack

variable (fromSlice : List UInt8 → Option Json.Value)

/-- One round of the loop, with what is left. -/
def unpackFile (rest : List UInt8) : Except UnpackError (TreeFile × List UInt8) := do
  let stop ← okOr (rest.findIdx? (· == 10)) (.failed "truncated tree header")
  let header ← okOr (fromSlice (rest.take stop)) .json
  let path ← okOr (asStr (index header "path")) (.failed "tree path")
  let path ← (validateRelativePath path).mapError .failed
  let len ← okOr (asU64 (index header "len")) (.failed "tree length")
  let executable := (asBool (index header "executable")).getD false
  let rest := rest.drop (stop + 1)
  refuseIf (rest.length < len) (.failed "truncated tree entry")
  return (⟨path, executable, rest.take len⟩, rest.drop len)

theorem unpackFile_shorter {fromSlice : List UInt8 → Option Json.Value} {rest rest' : List UInt8} {file : TreeFile}
    (h : unpackFile fromSlice rest = .ok (file, rest')) : rest'.length < rest.length := by
  simp only [unpackFile, bind_eq_ok, okOr_eq_ok, refuseIf_eq_ok, pure_eq_ok, Prod.mk.injEq] at h
  obtain ⟨stop, hstop, -, -, -, -, -, -, len, -, -, -, -, rfl⟩ := h
  have hlt := (List.findIdx?_eq_some_iff_getElem.1 hstop).1
  rw [List.length_drop, List.length_drop]
  omega

def unpackFrom (rest : List UInt8) : Except UnpackError (List TreeFile) :=
  if rest = [] then return []
  else
    match _h : unpackFile fromSlice rest with
    | .error e => .error e
    | .ok (file, rest) => (unpackFrom rest).map (file :: ·)
termination_by rest.length
decreasing_by exact unpackFile_shorter _h

def unpackTree (archive : List UInt8) : Except UnpackError (List TreeFile) :=
  match stripPrefix? TREE_MAGIC archive with
  | some rest => unpackFrom fromSlice rest
  | none => throw (.failed "not a Bellows tree")

end Unpack

/-! ## Restoring -/

def TREE : Text := "out-dir.tree".toList

inductive RestoreError where
  | failed (message : String)
  | fetch
  | unpack (error : UnpackError)
  /-- `unsafe restore path` -/
  | unsafePath (path : List Text)
  /-- `restore destination is a symlink` -/
  | symlink (path : Path)
  /-- `unsafe restore parent` -/
  | unsafeParent (path : Path)
  | call (call : String) (path : Path)
  deriving DecidableEq

/-- One entry of the earlier content: a directory stays that is a cache directory. -/
def clearEntry (outDir : Path) (d : Disk) (name : FileName) : Disk :=
  if d.nodeAt (outDir ++ [name]) = some .directory ∧ isCacheDirectory d.nodeAt (outDir ++ [name]) then d
  else d.remove (outDir ++ [name])

/-- The earlier content goes. -/
def clearTree (outDir : Path) (d : Disk) : Disk := (children d.tree outDir).foldl (clearEntry outDir) d

/-- `create_dir_all`, from a directory on. -/
def createDirs (d : Disk) (base : Path) : List FileName → Except RestoreError Disk
  | [] => return d
  | name :: names =>
    match d.nodeAt (base ++ [name]) with
    | some .directory => createDirs d (base ++ [name]) names
    | some _ => throw (.call "create_dir_all" (base ++ [name]))
    | none => do
      let d ← okOr (d.createDir (base ++ [name])) (.call "create_dir_all" (base ++ [name]))
      createDirs d (base ++ [name]) names

/-- `safe_destination`, from a directory on, with the disk that it leaves. -/
def safeDestination (d : Disk) (current : Path) : List FileName → Except RestoreError (Path × Disk)
  | [] => return (current, d)
  | segment :: rest =>
    let path := current ++ [segment]
    if rest = [] then
      if (d.nodeAt path).any (·.isSymlink) then throw (.symlink path) else return (path, d)
    else if (followed d.nodeAt path).isSome then
      if d.nodeAt path = some .directory then safeDestination d path rest else throw (.unsafeParent path)
    else do
      let d ← okOr (d.createDir path) (.call "create_dir" path)
      safeDestination d path rest

/-- `atomic_write`: the temporary file, which nobody may execute, is renamed. -/
def atomicWrite (d : Disk) (path : Path) (bytes : List UInt8) : Except RestoreError Disk :=
  okOr (d.put? path (.file bytes false)) (.call "rename" path)

def setFileExecutable (d : Disk) (path : Path) (executable : Bool) : Except RestoreError Disk :=
  if executable then
    match d.nodeAt path with
    | some (.file bytes _) => okOr (d.put? path (.file bytes true)) (.call "set_permissions" path)
    | _ => throw (.call "set_permissions" path)
  else return d

/-- One round of the loop over the files. -/
def restoreFile (outDir : Path) (d : Disk) (file : TreeFile) : Except RestoreError Disk := do
  let names ← okOr (file.path.mapM fun segment => FileName.of? (utf8 segment)) (.unsafePath file.path)
  let (destination, d) ← safeDestination d outDir names
  let d ← atomicWrite d destination file.bytes
  setFileExecutable d destination file.executable

/-- The files take the place of the earlier content. -/
def replaceTree (outDir : Path) (files : List TreeFile) (d : Disk) : Except RestoreError Disk := do
  let d ← createDirs (clearTree outDir d) [] outDir
  files.foldlM (restoreFile outDir) d

/-- What a restore writes. -/
structure Restored where
  disk : Disk
  stdout : List UInt8
  stderr : List UInt8

section Restore

variable (fromSlice : List UInt8 → Option Json.Value)
  (actionKey : Text → List FileInput → List FileInput → List EnvInput → Text)

/-- `restore`, of a record, with the identity's normalizer. -/
def restore (candidate : ActionCandidate) (normalizer : PathNormalizer) (outDir : Path)
    (fetch : List Text → Option (List (List UInt8))) (d : Disk) : Except RestoreError Restored := do
  (validateCandidateManifest actionKey candidate).mapError .failed
  match candidate.artifacts with
  | [artifact] =>
    refuseIf (artifact.fileName ≠ TREE) (.failed ("unexpected build-script artifact " ++ String.ofList artifact.fileName))
    match ← okOr (fetch [artifact.digest, candidate.stdout.digest, candidate.stderr.digest]) .fetch with
    | [archive, stdout, stderr] =>
      let files ← (unpackTree fromSlice archive).mapError .unpack
      refuseIf (stdout.length ≠ candidate.stdout.len ∨ stderr.length ≠ candidate.stderr.len)
        (.failed "build-script stream length does not match manifest")
      let d ← replaceTree outDir files d
      return ⟨d, normalizer.localizeBytes stdout, normalizer.localizeBytes stderr⟩
    | _ => throw (.failed "blob fetch returned the wrong number of blobs")
  | _ => throw (.failed "build-script record must hold exactly one tree")

end Restore

end Bellows.Cli.ScriptTree
