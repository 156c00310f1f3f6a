/-
Declared actions (`run_declared_action`): what an action made is restored from
the local store or the server where its record is, and otherwise the action is
run in a sandbox and its record is put.

The program asks what is outside of it. A tree stands for what the walks see: a
path resolves in it as it does on the way, links included, and a link is what
ends on one. The order in which a directory is read is the tree's. Of the
streams' terminal only what is written to it is kept.
-/
import Bellows.Cli.FileSystem
import Bellows.Cli.Restore
import Bellows.Core.DeclaredKey
import Bellows.Core.Localize
import Bellows.Lib.Dialogue
import Bellows.Lib.Directories
import Bellows.Service.Execute

namespace Bellows.Cli.Declared

open Text Trees Checked Dialogue Bellows.Core
open Restore (Path Workspace)
open Service (ExecuteRequest Finished executedRecord)

abbrev Bytes := List UInt8

/-- A file as it is collected. -/
abbrev Collected := Artifact × Bytes

/-! ## Trees -/

section Collect

variable (digest : Bytes → Text)

/-- A regular file, by its path from the root. -/
def collectFile (path : Path) (bytes : Bytes) (executable : Bool) : Except String (List Collected) := do
  let name := ['/'].intercalate path
  let _ ← validateRelativePath name
  return [(⟨name, digest bytes, executable⟩, bytes)]

/-- `collect_tree`; the fuel bounds how deep it goes. -/
def collectTree (t : Workspace) : Nat → Path → Except String (List Collected)
  | 0, _ => throw "too deep"
  | fuel + 1, path =>
    match nodeAt t path with
    | none => throw "no such file or directory"
    | some (.symlink _) => throw "symlinks are not allowed in declared trees"
    | some .special => throw "declared tree entry is not a regular file"
    | some (.file bytes executable) => collectFile digest path bytes executable
    | some .directory =>
      (children t path).foldlM (fun files name => do return files ++ (← collectTree t fuel (path ++ [name]))) []

/-- One declared path's files. -/
def collectDeclaration (t : Workspace) (declaration : Text) : Except String (List Collected) := do
  let path ← validateRelativePath declaration
  collectTree digest t (depth t + 1) path

def collectDeclarations (t : Workspace) (declarations : List Text) : Except String (List Collected) :=
  declarations.foldlM (fun files declaration => do return files ++ (← collectDeclaration digest t declaration)) []

end Collect

/-! ## An execution -/

/-- What a command's run in a sandbox leaves. -/
structure Ran where
  success : Bool
  /-- The sandbox's path. -/
  dir : Text
  stdout : Bytes
  stderr : Bytes
  tree : Workspace
  createdMs : Nat
  durationMs : Nat
  /-- No name has a separator. -/
  plain : ∀ entry ∈ tree, ∀ name ∈ entry.1, '/' ∉ name

namespace Ran

variable (digest : Bytes → Text) (ran : Ran)

def normalizer : PathNormalizer := .new [("$SANDBOX".toList, ran.dir)]

/-- A stream without the sandbox's path. -/
def normalized (stream : Bytes) : Bytes := ran.normalizer.normalizeBytes stream

def stream (bytes : Bytes) : StreamArtifact := ⟨digest bytes, bytes.length⟩

def finished (executor : Text) (files : List Collected) : Finished where
  collected := files.map (·.1)
  stdout := stream digest (ran.normalized ran.stdout)
  stderr := stream digest (ran.normalized ran.stderr)
  createdMs := ran.createdMs
  durationMs := ran.durationMs
  executor

/-- What `execute_local_declared` does once the command has ended: the record,
and the blobs. -/
def executed (executor : Text) (request : ExecuteRequest) (inputs : List Collected) :
    Except String (DeclaredActionRecord × List (Text × Bytes)) := do
  refuseIf (ran.success = false) "declared command failed"
  let files ← collectDeclarations digest ran.tree request.outputs
  let record ← okOr (executedRecord PROTOCOL_VERSION request (ran.finished digest executor files))
    "declared command produced no outputs"
  let streams := [ran.normalized ran.stdout, ran.normalized ran.stderr]
  let blobs := (inputs ++ files).map (fun file => (file.1.digest, file.2)) ++
    streams.map fun bytes => (digest bytes, bytes)
  return (record, KeyedSort.sortedBy (·.1) blobs.reverse)

end Ran

/-! ## The program -/

structure DeclaredRunArgs where
  /-- `local` -/
  localOnly : Bool
  name : Text
  inputs : List Text
  outputs : List Text
  environment : List Text
  command : List Text
  deriving DecidableEq, Repr

inductive Call where
  /-- `env::current_dir()?.canonicalize()` -/
  | currentDir
  /-- `PlatformIdentity::detect` -/
  | detectPlatform
  /-- Answered with the path from the workspace, if it is in there. -/
  | canonicalize (path : Text)
  /-- The workspace, as a walk sees it. -/
  | workspace
  /-- `env::var` -/
  | var (name : Text)
  /-- `local_store` -/
  | openStore
  /-- `Remote::new` -/
  | connect
  -- the store of the run, which is a local one or the server's
  | readRecord (key : Text)
  | removeRecord (key : Text)
  | putRecord (record : DeclaredActionRecord)
  | readBlob (digest : Text)
  | putBlob (digest : Text) (bytes : Bytes)
  /-- `Remote::execute`; answered with whether it was a hit. -/
  | execute (request : ExecuteRequest)
  /-- The sandbox is made, the inputs are written, and the command is run. -/
  | sandbox (request : ExecuteRequest) (inputs : List Collected)
  /-- `declared_outputs` -/
  | restore (record : DeclaredActionRecord) (staged : List Collected)
  /-- To standard output and standard error. -/
  | print (stdout stderr : Bytes)
  | report (kind : String)
  deriving DecidableEq

abbrev Answer : Call → Type
  | .currentDir => Except String Text
  | .detectPlatform => Except String PlatformIdentity
  | .canonicalize _ => Except String (Option Path)
  | .workspace => Workspace
  | .var _ => Option Text
  | .readRecord _ => Except String (Option DeclaredActionRecord)
  | .readBlob _ => Except String Bytes
  | .execute _ => Except String (Bool × DeclaredActionRecord)
  | .sandbox .. => Except String Ran
  | .report _ => Unit
  | _ => Except String Unit

abbrev Asking := Dialogue Answer

abbrev Program := Fallible Answer String

/-- What a run is of, once it is known. -/
structure Job where
  request : ExecuteRequest
  inputs : List Collected
  deriving DecidableEq, Repr

section Program

variable (digest : Bytes → Text)

def report (kind : String) : Program Unit := tryAsk (.report kind) .ok

/-! ### What is to be run -/

def declaredInput (workspace path : Text) : Program (List Collected) := do
  let canonical ← tryAsk (.canonicalize (join workspace path)) id
  let inside ← settled (okOr canonical "declared input escapes workspace")
  let t ← tryAsk .workspace .ok
  settled (collectTree digest t (depth t + 1) inside)

/-- `collect_declared_inputs` -/
def collectDeclaredInputs (workspace : Text) : List Text → Program (List Collected)
  | [] => pure []
  | path :: paths => do
    let files ← declaredInput digest workspace path
    let rest ← collectDeclaredInputs workspace paths
    return files ++ rest

/-- An absolute path without the workspace's. -/
def pathInside (workspace path : Text) : Except String Text :=
  if isAbsolute path then
    okOr ((stripPrefix? (components workspace) (components path)).map ['/'].intercalate)
      "declared output escapes workspace"
  else return path

/-- `normalize_declared_path` -/
def normalizeDeclaredPath (workspace path : Text) : Except String Text := do
  let value ← pathInside workspace path
  let _ ← validateRelativePath value
  return value

def FIXED_ENVIRONMENT : List Text := ["PATH", "HOME", "CARGO_HOME", "RUSTUP_HOME", "RUSTUP_TOOLCHAIN"].map String.toList

/-- `declared_environment`, in the order of the names. -/
def declaredEnvironment : List Text → Program (List (Text × Text))
  | [] => pure []
  | name :: names => do
    settled (refuseIf (name ∈ FIXED_ENVIRONMENT) "declared environment may not override it")
    let value ← tryAsk (.var name) fun value => okOr value "declared environment is absent"
    let rest ← declaredEnvironment names
    return (name, value) :: rest

/-- The request, and the key of the action. -/
def requestOf (args : DeclaredRunArgs) (platform : PlatformIdentity) (environment : List (Text × Text))
    (inputs : List Artifact) (outputs : List Text) : ExecuteRequest where
  key := declaredActionKey digest args.name platform args.command environment inputs outputs
  name := args.name
  platform
  command := args.command
  environment
  inputs
  outputs

/-- The first part of `run_declared_action`. -/
def prepare (args : DeclaredRunArgs) : Program Job := do
  let workspace ← tryAsk .currentDir id
  let platform ← tryAsk .detectPlatform id
  settled (validateDeclaredCommand args.command)
  let files ← collectDeclaredInputs digest workspace args.inputs
  let inputs := KeyedSort.sortedBy (fun file : Collected => file.1.fileName) files
  let outputs ← settled (args.outputs.mapM (normalizeDeclaredPath workspace))
  settled (validateOutputRoots (inputs.map (·.1)) outputs)
  let environment ← declaredEnvironment args.environment
  let sorted := KeyedSort.sortedBy (·.1) environment.reverse
  return ⟨requestOf digest args platform sorted (inputs.map (·.1)) outputs, inputs⟩

/-! ### Records and blobs -/

/-- What `read_declared` and `Remote::declared` check of a record. -/
def checkRecord (key : Text) (record : DeclaredActionRecord) : Except String Unit := do
  validateDeclaredRecord (declaredActionKey digest) record
  refuseIf (record.key ≠ key) "declared record key does not match"

def checkFound (key : Text) (answer : Except String (Option DeclaredActionRecord)) :
    Except String (Option DeclaredActionRecord) := do
  let found ← answer
  found.toList.forM (checkRecord digest key)
  return found

def readDeclared (key : Text) : Program (Option DeclaredActionRecord) :=
  tryAsk (.readRecord key) (checkFound digest key)

def putDeclared (record : DeclaredActionRecord) : Program Unit := do
  settled (validateDeclaredRecord (declaredActionKey digest) record)
  tryAsk (.putRecord record) id

/-- The bytes, if they hash to the name. -/
def verified (name : Text) (answer : Except String Bytes) : Except String Bytes := do
  let bytes ← answer
  refuseIf (digest bytes ≠ name) "corrupt blob"
  return bytes

/-- `read_blob`, and the fetch of a blob. -/
def readBlob (name : Text) : Program Bytes := tryAsk (.readBlob name) (verified digest name)

def putBlob (blob : Text × Bytes) : Program Unit := do
  settled (refuseIf (digest blob.2 ≠ blob.1) "blob digest mismatch")
  tryAsk (.putBlob blob.1 blob.2) id

/-! ### What a record has -/

structure LoadedDeclared where
  staged : List Collected
  stdout : Bytes
  stderr : Bytes

def loadArtifacts : List Artifact → Program (List Collected)
  | [] => pure []
  | artifact :: artifacts => do
    let bytes ← readBlob digest artifact.digest
    let rest ← loadArtifacts artifacts
    return (artifact, bytes) :: rest

/-- `load_declared_record_local`, and the first half of
`restore_declared_record`. -/
def loadDeclaredRecord (record : DeclaredActionRecord) : Program LoadedDeclared := do
  settled (validateDeclaredRecord (declaredActionKey digest) record)
  let staged ← loadArtifacts digest record.outputs
  let stdout ← readBlob digest record.stdout.digest
  let stderr ← readBlob digest record.stderr.digest
  settled (refuseIf (stdout.length ≠ record.stdout.len ∨ stderr.length ≠ record.stderr.len)
    "declared stream length does not match manifest")
  return ⟨staged, stdout, stderr⟩

/-- `materialize_declared_record` -/
def materializeDeclaredRecord (record : DeclaredActionRecord) (loaded : LoadedDeclared) : Program Unit := do
  tryAsk (.restore record loaded.staged) id
  tryAsk (.print loaded.stdout loaded.stderr) id

/-- `restore_declared_record`, `restore_declared_record_local` -/
def restoreDeclaredRecord (record : DeclaredActionRecord) : Program Unit := do
  let loaded ← loadDeclaredRecord digest record
  materializeDeclaredRecord record loaded

/-! ### The run -/

def LOCAL_EXECUTOR : Text := "local-sandbox".toList

def executeLocalDeclared (job : Job) : Program (DeclaredActionRecord × List (Text × Bytes)) := do
  let ran ← tryAsk (.sandbox job.request job.inputs) id
  tryAsk (.print ran.stdout ran.stderr) id
  settled (ran.executed digest LOCAL_EXECUTOR job.request job.inputs)

/-- A record that cannot be put is only reported. -/
def publishLocally (record : DeclaredActionRecord) : Program Unit :=
  ExceptT.mk do
    match ← (putDeclared digest record).run with
    | .ok () => return .ok ()
    | .error _ => (report "result was produced but its record raced publication").run

/-- The end of `run_local_declared_action`, where nothing was restored. -/
def runFresh (job : Job) : Program Unit := do
  let (record, blobs) ← executeLocalDeclared digest job
  blobs.forM (putBlob digest)
  publishLocally digest record
  restoreDeclaredRecord digest record
  report "miss"

/-- A record in the local store: what cannot be loaded is rebuilt. -/
def runRecorded (job : Job) (record : DeclaredActionRecord) : Program Unit :=
  ExceptT.mk do
    match ← (loadDeclaredRecord digest record).run with
    | .ok loaded => (do materializeDeclaredRecord record loaded; report "hit" : Program Unit).run
    | .error _ =>
      (do
        report "stale cached result will be rebuilt"
        tryAsk (.removeRecord job.request.key) id
        runFresh digest job : Program Unit).run

def runLocalDeclaredAction (job : Job) : Program Unit := do
  tryAsk .openStore id
  match ← readDeclared digest job.request.key with
  | some record => runRecorded digest job record
  | none => runFresh digest job

/-- A miss, where the server runs the action. -/
def runRemotely (job : Job) : Program Unit := do
  let (hit, record) ← tryAsk (.execute job.request) id
  report (if hit then "hit" else "executed")
  restoreDeclaredRecord digest record

/-- A miss, where the client runs it. -/
def runHere (job : Job) : Program Unit := do
  let (record, blobs) ← executeLocalDeclared digest job
  blobs.forM (putBlob digest)
  putDeclared digest record
  report "miss"
  restoreDeclaredRecord digest record

def runShared (job : Job) (remoteExecution : Bool) : Program Unit := do
  tryAsk .connect id
  match ← readDeclared digest job.request.key with
  | some record =>
    restoreDeclaredRecord digest record
    report "hit"
  | none =>
    (job.inputs.map fun file => (file.1.digest, file.2)).forM (putBlob digest)
    if remoteExecution then runRemotely digest job else runHere digest job

/-- The rest of `run_declared_action`. -/
def runJob (localOnly remoteExecution : Bool) (job : Job) : Program Unit :=
  if localOnly then runLocalDeclaredAction digest job else runShared digest job remoteExecution

def runDeclaredAction (args : DeclaredRunArgs) (remoteExecution : Bool) : Program Unit := do
  let job ← prepare digest args
  runJob digest args.localOnly remoteExecution job

end Program

end Bellows.Cli.Declared
