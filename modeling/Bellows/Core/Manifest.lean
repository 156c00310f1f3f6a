/-
The records a store holds: compiler candidates, declared actions, archives.
-/
import Bellows.Lib.Text

namespace Bellows.Core

/-- `validate_content_key`: a lowercase digest of 64 characters. -/
def validContentKey (key : Text) : Bool :=
  key.length == 64 && key.all fun c => c.isDigit || ('a' ≤ c && c ≤ 'f')

structure FileInput where
  path : Text
  digest : Text
  deriving DecidableEq, Repr

/-- Of the synthetic environment inputs that pin a candidate to a root. -/
def PIN_PREFIX : Text := "@bellows:root:".toList

structure EnvInput where
  name : Text
  valueDigest : Option Text
  normalized : Bool
  deriving DecidableEq, Repr

structure Artifact where
  fileName : Text
  digest : Text
  executable : Bool
  deriving DecidableEq, Repr

structure StreamArtifact where
  digest : Text
  len : Nat
  deriving DecidableEq, Repr

structure ActionCandidate where
  protocol : Nat
  staticKey : Text
  actionKey : Text
  crateName : Text
  createdMs : Nat
  files : List FileInput
  hostFiles : List FileInput
  env : List EnvInput
  artifacts : List Artifact
  stdout : StreamArtifact
  stderr : StreamArtifact
  procMacros : List Text
  deriving DecidableEq, Repr

structure PlatformIdentity where
  rustc : Text
  cargo : Text
  os : Text
  arch : Text
  pathDigest : Text
  rustupHomeDigest : Text
  rustupToolchain : Option Text
  hostCc : Option Text
  hostLd : Option Text
  hostAr : Option Text
  deriving DecidableEq, Repr

structure DeclaredActionRecord where
  protocol : Nat
  key : Text
  name : Text
  createdMs : Nat
  platform : PlatformIdentity
  command : List Text
  environment : List (Text × Text)
  inputs : List Artifact
  outputPaths : List Text
  outputs : List Artifact
  stdout : StreamArtifact
  stderr : StreamArtifact
  durationMs : Nat
  executor : Text
  deriving DecidableEq, Repr

structure ArchiveManifest where
  protocol : Nat
  name : Text
  treeDigest : Text
  createdMs : Nat
  producerAction : Option Text
  files : List Artifact
  deriving DecidableEq, Repr

/-- One evictable record: a candidate of an index, or the whole of a declared
action's or an archive's file. -/
inductive Record where
  | candidate (c : ActionCandidate)
  | declared (r : DeclaredActionRecord)
  | archive (m : ArchiveManifest)
  deriving DecidableEq, Repr

/-- The blobs a record references. -/
def Record.digests : Record → List Text
  | .candidate c => c.artifacts.map (·.digest) ++ [c.stdout.digest, c.stderr.digest]
  | .declared r => (r.inputs ++ r.outputs).map (·.digest) ++ [r.stdout.digest, r.stderr.digest]
  | .archive m => m.files.map (·.digest)

/-- The streams of a record, whose lengths a publication checks too. -/
def Record.streams : Record → List StreamArtifact
  | .candidate c => [c.stdout, c.stderr]
  | .declared r => [r.stdout, r.stderr]
  | .archive _ => []

/-- A record's file below the store's root. -/
inductive RecordPath where
  | action (staticKey : Text)
  | archive (name : Text)
  | declared (key : Text)
  deriving DecidableEq, Repr

/-- `action_path`, `declared_path`, `archive_path`. -/
def Record.path : Record → RecordPath
  | .candidate c => .action c.staticKey
  | .declared r => .declared r.key
  | .archive m => .archive m.name

/-- The store's three directories of records, in the order a collection reads
them. -/
inductive Directory where
  | actions
  | declared
  | archives
  deriving DecidableEq, Repr

def RecordPath.directory : RecordPath → Directory
  | .action _ => .actions
  | .declared _ => .declared
  | .archive _ => .archives

end Bellows.Core
