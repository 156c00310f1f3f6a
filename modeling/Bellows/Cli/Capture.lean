/-
The inputs of a captured result: what `capture_outputs` records of a compile
and `build_script::capture` of a build script's run.

Everything here happens after the tool has ended, so one state of the file
system answers every question. What the linker reads is asked from outside
(`LinkInputs`), as are content digests. Walks of directories take fuel; a
walk that runs out of it fails, so a capture that succeeds had enough.
-/
import Mathlib.Data.Finset.Sort
import Mathlib.Data.List.Lex
import Mathlib.Data.String.Basic
import Bellows.Core.DepInfo
import Bellows.Core.Manifest
import Bellows.Core.PathNormalizer
import Bellows.Cli.FileSystem

namespace Bellows.Cli

open Text Bellows.Core

inductive CaptureError where
  /-- `NotStored`: a result Bellows declines to store, and why. -/
  | notStored (reason : String)
  | failed (message : String)
  /-- A call the file system answered with an error. -/
  | io (call : String) (path : Text)
  | outOfFuel
  deriving DecidableEq, Repr

def display (path : Text) : String := String.ofList path

/-- An answer of the file system, or the error that there is none. -/
def ask {α : Type} (call : String) (path : Text) : Option α → Except CaptureError α
  | some answer => .ok answer
  | none => .error (.io call path)

theorem ask_eq_ok {α : Type} {call : String} {path : Text} {answer : Option α} {a : α} :
    ask call path answer = .ok a ↔ answer = some a := by
  cases answer <;> simp [ask]

/-- The part of `Identity` the recording of inputs looks at. -/
structure Identity where
  workspace : Text
  normalizer : PathNormalizer
  checkout : Option Text

/-- What a capture is made in. -/
structure World where
  fs : FileSystem
  identity : Identity
  /-- When the tool started, in nanoseconds. -/
  started : Int
  digestBytes : Text → Text
  /-- How deep directories are walked. -/
  fuel : Nat

/-- What a capture records. -/
structure Inputs where
  files : List FileInput
  hostFiles : List FileInput
  /-- Listings of the directories that are themselves roots: the environment
  input's name and what it is the digest of. -/
  listings : List (Text × Text)
  deriving DecidableEq, Repr

def Inputs.empty : Inputs := ⟨[], [], []⟩

/-- `sort_by` path, then `dedup_by` path. -/
def sortedInputs (inputs : List FileInput) : List FileInput :=
  (inputs.insertionSort fun a b => a.path ≤ b.path).destutter fun a b => a.path ≠ b.path

def Inputs.sorted (inputs : Inputs) : Inputs where
  files := sortedInputs inputs.files
  hostFiles := sortedInputs inputs.hostFiles
  listings := inputs.listings

/-- Where both captures put an input: under its normalized path if that is a
valid one, else as a host file. -/
def Inputs.push (inputs : Inputs) (normalized absolute digest : Text) : Inputs :=
  if (validateNormalizedInputPath normalized).isOk then
    { inputs with files := inputs.files ++ [⟨normalized, digest⟩] }
  else { inputs with hostFiles := inputs.hostFiles ++ [⟨absolute, digest⟩] }

def absolutePath (path workspace : Text) : Text := if isAbsolute path then path else join workspace path

/-! ## Timestamps -/

/-- `timestamp_slack`: how far a stamp may trail the clock; two seconds for
one without a sub-second part. -/
def timestampSlack (stamp : Int) : Int :=
  if 0 ≤ stamp ∧ stamp % 1000000000 = 0 then 2000000000 else 50000000

/-- `change_time`; negative parts cannot be read. -/
def changeTime (metadata : Metadata) : Option Int :=
  if 0 ≤ metadata.ctime ∧ 0 ≤ metadata.ctimeNsec ∧ metadata.ctimeNsec < 2 ^ 32 then
    some (metadata.ctime * 1000000000 + metadata.ctimeNsec)
  else none

/-- `changed_during_compile` -/
def changedDuringCompile (fs : FileSystem) (path : Text) (started : Int) : Bool :=
  match fs.metadata path with
  | none => true
  | some metadata =>
    [some metadata.modified, changeTime metadata].any fun
      | some stamp => stamp ≥ started - timestampSlack stamp
      | none => true

/-! ## Roots and checkouts -/

/-- `git_root` -/
def gitRoot (fs : FileSystem) (dir : Text) : Option Text :=
  (ancestors dir).find? fun ancestor => fs.pathExists (join ancestor ".git".toList)

/-- `foreign_checkout` -/
def foreignCheckout (fs : FileSystem) (path : Text) (checkout : Option Text) : Bool :=
  let resolved := (fs.canonicalize path).getD path
  match gitRoot fs ((parent resolved).getD resolved) with
  | some root => checkout.map components != some (components root)
  | none => false

/-- `outside_checkout_roots` -/
def outsideCheckoutRoots (normalized : Text) : Bool :=
  !([CHECKOUT, WORKSPACE, TARGET, PROFILE, CARGO_HOME, RUSTUP_HOME].any (·.isPrefixOf normalized))

/-- `produced_by_cargo`, computed alike by both captures. -/
def producedByCargo (normalized : Text) : Bool := [TARGET, PROFILE].any (·.isPrefixOf normalized)

/-! ## Compiler invocations -/

inductive OutputKind where
  | library
  | linked
  deriving DecidableEq, Repr

structure StaticLibrary where
  name : Text
  verbatim : Bool

/-- The part of `Invocation` that names inputs. -/
structure Invocation where
  kind : OutputKind
  explicitInputs : List Text
  staticLibraries : List StaticLibrary
  nativeSearch : List Text
  msvc : Bool

/-- What the link read, as `link_inputs` finds it from the linker's command,
and the canonical sysroot. -/
structure LinkInputs where
  sysroot : Text
  files : List Text

/-- `canonical_compiler_input`: nothing reached through a symbolic link. -/
def canonicalCompilerInput (fs : FileSystem) (path : Text) : Except CaptureError Text := do
  (ancestors path).forM fun ancestor => do
    let metadata ← ask "symlink_metadata" ancestor (fs.symlinkMetadata ancestor)
    if metadata.kind = .symlink then
      throw (.failed ("symlinked compiler input is not cacheable: " ++ display ancestor))
  ask "canonicalize" path (fs.canonicalize path)

def StaticLibrary.names (library : StaticLibrary) (msvc : Bool) : List Text :=
  if library.verbatim then [library.name]
  else if msvc then [library.name ++ ".lib".toList]
  else ["lib".toList ++ library.name ++ ".a".toList, library.name ++ ".lib".toList]

/-- One round of `resolve_static_libraries`'s loop. -/
def resolveStaticLibrary (w : World) (invocation : Invocation) (found : List Text)
    (library : StaticLibrary) : Except CaptureError (List Text) :=
  let here := (invocation.nativeSearch.flatMap fun dir => (library.names invocation.msvc).map fun name =>
    absolutePath (join dir name) w.identity.workspace).filter w.fs.isFile
  if here = [] then
    throw (.failed ("static native library " ++ display library.name ++
      " was not found in the -L native directories"))
  else return found ++ here

def resolveStaticLibraries (w : World) (invocation : Invocation) : Except CaptureError (List Text) :=
  if invocation.kind ≠ .library then return []
  else invocation.staticLibraries.foldlM (resolveStaticLibrary w invocation) []

/-- The closure `record` of `capture_outputs`, for an input that may be a
host file. -/
def record (w : World) (inputs : Inputs) (absolute : Text) : Except CaptureError Inputs :=
  let normalized := w.identity.normalizer.normalize absolute
  if outsideCheckoutRoots normalized && foreignCheckout w.fs absolute w.identity.checkout then
    throw (.notStored ("reads " ++ display absolute ++ " from another checkout"))
  else if !producedByCargo normalized && changedDuringCompile w.fs absolute w.started then
    throw (.notStored (display absolute ++ " changed during the compile"))
  else do
    let digest ← ask "digest" absolute (w.fs.digest absolute)
    return inputs.push normalized absolute digest

/-- The file a dependency names, or the reason it cannot be an input. -/
def compilerInput (w : World) (path : Text) : Except CaptureError Text :=
  let absolute := absolutePath path w.identity.workspace
  if !w.fs.isFile absolute then
    throw (.failed ("rustc dependency disappeared before capture: " ++ display absolute))
  else canonicalCompilerInput w.fs absolute

/-- Toolchain files are identified by the compiler's version; other files the
link read are recorded as what they resolve to. -/
def linkInput (w : World) (path : Text) : Text :=
  let absolute := absolutePath path w.identity.workspace
  (w.fs.canonicalize absolute).getD absolute

/-- `file_paths`, before they are sorted. -/
def filePaths (w : World) (invocation : Invocation) (depText : Text) : Except CaptureError (List Text) := do
  let libraries ← resolveStaticLibraries w invocation
  return invocation.explicitInputs ++ (parseDepInfo depText).1.sort ++ libraries

/-- The loop over `file_paths`. -/
def recordFile (w : World) (inputs : Inputs) (path : Text) : Except CaptureError Inputs := do
  let absolute ← compilerInput w path
  record w inputs absolute

/-- The loop over what the link read; the sysroot's own files are left out. -/
def recordLinked (w : World) (sysroot : Text) (inputs : Inputs) (path : Text) : Except CaptureError Inputs :=
  if startsWith (linkInput w path) sysroot then return inputs else record w inputs (linkInput w path)

def recordLink (w : World) (inputs : Inputs) : Option LinkInputs → Except CaptureError Inputs
  | none => return inputs
  | some link => link.files.foldlM (recordLinked w link.sysroot) inputs

/-- The inputs of `capture_outputs`. -/
def compilerInputs (w : World) (invocation : Invocation) (depText : Text) (link : Option LinkInputs) :
    Except CaptureError Inputs := do
  let paths ← filePaths w invocation depText
  let inputs ← (sortedPaths paths).foldlM (recordFile w) Inputs.empty
  let inputs ← recordLink w inputs link
  return inputs.sorted

/-! ## Build scripts -/

namespace BuildScript

def LISTING_PREFIX : Text := "BELLOWS_LISTING:".toList

/-- `declared_inputs`: the paths of `rerun-if-changed` directives. -/
def declaredFiles (stdout : Text) : List Text :=
  (lines stdout).filterMap fun line =>
    ((stripPrefix? "cargo::".toList line).or (stripPrefix? "cargo:".toList line)).bind
      (stripPrefix? "rerun-if-changed=".toList)

def isCacheDirectory (fs : FileSystem) (path : Text) : Bool := fs.isFile (join path "CACHEDIR.TAG".toList)

/-- `skipped_directory`: build output and version control. -/
def skippedDirectory (fs : FileSystem) (path : Text) : Bool :=
  fileName path == "target".toList || fileName path == ".git".toList || isCacheDirectory fs path

/-- The entries `directory_listing_digest` hashes, `walk`'s loop: the kind and
relative path of everything the walk visits. -/
def listEntries (fs : FileSystem) (root : Text) : Nat → Text → Except CaptureError (List Text)
  | 0, _ => throw .outOfFuel
  | n + 1, dir => do
    if skippedDirectory fs dir then return []
    let children ← ask "read_dir" dir (fs.readDir dir)
    children.foldlM (fun entries path => do
      let relative := ['/'].intercalate ((components path).drop (components root).length)
      let metadata ← ask "symlink_metadata" path (fs.symlinkMetadata path)
      match metadata.kind with
      | .directory =>
        let below ← listEntries fs root n path
        return entries ++ ('d' :: ' ' :: relative) :: below
      | .symlink => return entries ++ ['l' :: ' ' :: relative]
      | _ => return entries ++ ['f' :: ' ' :: relative]) []

/-- `directory_listing_digest` -/
def directoryListingDigest (w : World) (root : Text) : Except CaptureError Text := do
  let entries ← listEntries w.fs root w.fuel root
  return w.digestBytes ("bellows-directory-listing-v1\x00".toList ++
    (entries.insertionSort (· ≤ ·)).flatMap fun entry => entry ++ ['\x00'])

/-- `input_digest` -/
def inputDigest (w : World) (path : Text) : Except CaptureError Text := do
  let metadata ← ask "symlink_metadata" path (w.fs.symlinkMetadata path)
  if metadata.kind = .directory then directoryListingDigest w path
  else ask "digest" path (w.fs.digest path)

/-- `walk_inputs` -/
def walkInputs (fs : FileSystem) : Nat → Text → Except CaptureError (List Text)
  | 0, _ => throw .outOfFuel
  | n + 1, path => do
    let metadata ← ask "symlink_metadata" path (fs.symlinkMetadata path)
    match metadata.kind with
    | .directory =>
      if skippedDirectory fs path then return []
      let children ← ask "read_dir" path (fs.readDir path)
      children.foldlM (fun files child => do return files ++ (← walkInputs fs n child)) []
    | .file => return [path]
    | .symlink =>
      let resolved ← ask "canonicalize" path (fs.canonicalize path)
      return if fs.isFile resolved then [resolved] else []
    | .other => return []

/-- A declared path and what lies below it; a directory is itself an input. -/
def declaredPaths (w : World) (declared : Text) : Except CaptureError (List Text) :=
  let path := join w.identity.workspace declared
  if !w.fs.pathExists path then
    throw (.notStored ("rerun-if-changed path " ++ display declared ++
      " does not exist, so Cargo reruns the script every time"))
  else do
    let below ← walkInputs w.fs w.fuel path
    let metadata ← ask "symlink_metadata" path (w.fs.symlinkMetadata path)
    return if metadata.kind = .directory then below ++ [path] else below

/-- `paths`: what the script declares, or its whole package. -/
def inputPaths (w : World) (stdout : Text) : Except CaptureError (List Text) :=
  if declaredFiles stdout = [] then do
    let below ← walkInputs w.fs w.fuel w.identity.workspace
    return below ++ [w.identity.workspace]
  else (declaredFiles stdout).foldlM (fun paths declared => do return paths ++ (← declaredPaths w declared)) []

def resolved (w : World) (path : Text) : Text := (w.fs.canonicalize path).getD path

/-- Whether an input was written while the script ran; the package directory
is judged by its listing from before the run. -/
def changedWhileRunning (w : World) (packageListing : Option Text) (absolute : Text) : Bool :=
  if components absolute == components (resolved w w.identity.workspace) && w.fs.isDir absolute then
    packageListing.all fun before =>
      match directoryListingDigest w absolute with
      | .ok listing => listing != before
      | .error _ => true
  else
    !producedByCargo (w.identity.normalizer.normalize absolute) &&
      changedDuringCompile w.fs absolute w.started

/-- Whether a directory is itself a root, which only an environment input
can name. -/
def isRootDirectory (w : World) (normalized absolute : Text) : Except CaptureError Bool :=
  if normalized.head? = some '$' ∧ !(validateNormalizedInputPath normalized).isOk then do
    let metadata ← ask "symlink_metadata" absolute (w.fs.symlinkMetadata absolute)
    return metadata.kind == .directory
  else return false

/-- One round of `capture`'s loop over its paths. -/
def record (w : World) (packageListing : Option Text) (inputs : Inputs) (path : Text) :
    Except CaptureError Inputs :=
  let absolute := resolved w path
  let normalized := w.identity.normalizer.normalize absolute
  if changedWhileRunning w packageListing absolute then
    throw (.notStored (display absolute ++ " changed while the build script ran"))
  else do
    if ← isRootDirectory w normalized absolute then
      let digest ← directoryListingDigest w absolute
      return { inputs with listings := inputs.listings ++ [(LISTING_PREFIX ++ normalized, digest)] }
    else if outsideCheckoutRoots normalized && foreignCheckout w.fs absolute w.identity.checkout then
      throw (.notStored ("reads " ++ display absolute ++ " from another checkout"))
    else
      let digest ← inputDigest w absolute
      return inputs.push normalized absolute digest

/-- The inputs of `build_script::capture`. -/
def inputs (w : World) (stdout : Text) (packageListing : Option Text) : Except CaptureError Inputs := do
  let paths ← inputPaths w stdout
  let inputs ← (sortedPaths paths).foldlM (record w packageListing) Inputs.empty
  return inputs.sorted

end BuildScript

end Bellows.Cli
