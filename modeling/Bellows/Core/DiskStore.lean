/-
The store's operations one file operation at a time: blobs and records are
written to a temporary file, which is synced and renamed, and the names of
blobs and records are changed under the mutation lock.

The programs ask what is outside of them, the disk and the clock. A temporary
name is a number: a process's id, the clock and a count make it one that no
other has. The journal is only asked for the uses in it, and an upload's
chunks are there from the start.
-/
import Bellows.Core.DeclaredKey
import Bellows.Core.Store
import Bellows.Lib.Dialogue

namespace Bellows.Core.DiskStore

open Dialogue

abbrev Bytes := List UInt8

/-! ## Names -/

inductive Folder where
  /-- By the first two characters of a digest or a key. -/
  | blobs (shard : Text)
  | actions (shard : Text)
  | declared (shard : Text)
  | archives
  | quarantine
  deriving DecidableEq, Repr

inductive Place where
  | blob (digest : Text)
  | record (path : RecordPath)
  | temp (folder : Folder) (n : Nat)
  | quarantined (n : Nat)
  deriving DecidableEq, Repr

def Place.folder : Place → Folder
  | .blob digest => .blobs (digest.take 2)
  | .record (.action key) => .actions (key.take 2)
  | .record (.declared key) => .declared (key.take 2)
  | .record (.archive _) => .archives
  | .temp folder _ => folder
  | .quarantined _ => .quarantine

/-- What `blob_path`, `action_path`, `declared_path` and `archive_path`
check. -/
def Place.named : Place → Bool
  | .blob digest => validContentKey digest
  | .record (.action key) => validContentKey key
  | .record (.declared key) => validContentKey key
  | .record (.archive name) => validArchiveName name
  | _ => true

/-! ## Records as bytes -/

/-- What a record file holds. -/
abbrev Contents : RecordPath → Type
  | .action _ => List ActionCandidate
  | .declared _ => DeclaredActionRecord
  | .archive _ => ArchiveManifest

/-- What the readers validate. -/
def valid (v : Validators) : (path : RecordPath) → Contents path → Bool
  | .action key, index => Store.validIndex v key index
  | .declared key, record => v.declared record && record.key == key
  | .archive name, manifest => v.archive manifest && manifest.name == name

structure Format where
  /-- `digest_bytes` -/
  digest : Bytes → Text
  validators : Validators
  /-- `serde_json::to_vec_pretty` -/
  encode : (path : RecordPath) → Contents path → Bytes
  /-- `serde_json::from_slice` -/
  decode : (path : RecordPath) → Bytes → Except String (Contents path)
  decode_encode : ∀ path value, valid validators path value = true → decode path (encode path value) = .ok value

/-! ## Calls -/

inductive IoError where
  | notFound
  | other (message : String)
  deriving DecidableEq, Repr

inductive Failure where
  | io (error : IoError)
  /-- Of a key or an archive's name. -/
  | invalidName
  /-- "blob digest mismatch: expected {expected}, got {actual}" -/
  | mismatch (expected actual : Text)
  /-- "corrupt blob {digest}: content hashes to {actual}" -/
  | corrupt (digest actual : Text)
  | undecodable (message : String)
  /-- Of a record. -/
  | invalid
  /-- "record {path} failed validation and was quarantined" -/
  | quarantined (path : RecordPath) (error : Failure)
  /-- "record {path} failed validation; quarantine also failed: {second}" -/
  | unquarantined (path : RecordPath) (error second : Failure)
  /-- "declared action key already exists with different content" -/
  | declaredConflict
  /-- "archive name is already bound to a different tree" -/
  | archiveConflict
  /-- "blob exceeds the server's size limit" -/
  | tooLarge
  /-- "read upload: {message}" -/
  | upload (message : String)
  deriving DecidableEq, Repr

inductive Call where
  /-- `.mutation.lock` is opened. -/
  | openLock
  | lock
  | unlock
  /-- `path.exists()`, which takes a failure for `false`. -/
  | exists (place : Place)
  | read (place : Place)
  /-- `create_dir_all` -/
  | createDirs (folder : Folder)
  | tempNumber
  /-- Opened with `create_new`; answered with the file. -/
  | createNew (place : Place)
  /-- At the file's end. -/
  | write (file : Nat) (bytes : Bytes)
  | sync (file : Nat)
  | rename (src dst : Place)
  | remove (place : Place)
  /-- `sync_parent` -/
  | syncDir (folder : Folder)
  /-- `touch_blob` -/
  | touch (digest : Text)
  /-- Its modification time, where the file has one. -/
  | modified (place : Place)
  /-- `record_use` -/
  | recordUse (staticKey actionKey : Text)
  /-- The uses in the journal since it was rotated. -/
  | recentUses
  /-- The temporary files that are an hour old or more. -/
  | oldTemps
  deriving DecidableEq, Repr

/-- What is not about the names and the content of files. -/
def Call.aside : Call → Bool
  | .openLock | .createDirs _ | .touch _ | .modified _ | .recordUse .. | .recentUses | .oldTemps => true
  | _ => false

abbrev Answer : Call → Type
  | .exists _ => Bool
  | .read _ => Except IoError Bytes
  | .tempNumber => Nat
  | .createNew _ => Except IoError Nat
  | .modified _ => Except IoError (Option Nat)
  | .recentUses => Except IoError (List (Text × Text))
  | .oldTemps => Except IoError (List (Folder × Nat))
  | _ => Except IoError Unit

abbrev Asking := Dialogue Answer

abbrev Storing := Fallible Answer Failure

def fails {α : Type} (failure : Failure) : Storing α := settled (.error failure)

/-- `?` on a file operation. -/
def io {α : Type} (answer : Except IoError α) : Except Failure α := answer.mapError .io

def checked (place : Place) : Storing Unit := if place.named then pure () else fails .invalidName

def createDirs (folder : Folder) : Storing Unit := tryAsk (.createDirs folder) io

def syncParent (place : Place) : Storing Unit := tryAsk (.syncDir place.folder) io

/-- Whether it was there. -/
def removed : Except IoError Unit → Except Failure Bool
  | .ok () => .ok true
  | .error .notFound => .ok false
  | .error error => .error (.io error)

/-! ## Writing -/

/-- A new temporary file with the content, synced. -/
def writeNew (temp : Place) (bytes : Bytes) : Storing Unit := do
  let file ← tryAsk (.createNew temp) io
  tryAsk (.write file bytes) io
  tryAsk (.sync file) io

def tempPath (folder : Folder) : Storing Place := do
  createDirs folder
  let n ← tryAsk .tempNumber .ok
  return .temp folder n

/-- A rename that failed does not matter where the content is there already. -/
def afterRefusal (place temp : Place) (bytes : Bytes) (failure : Failure) : Storing Unit := do
  let there ← tryAsk (.exists place) .ok
  let _ ← attempt (tryAsk (.remove temp) io)
  if there then
    let existing ← attempt (tryAsk (.read place) io)
    settled (if existing = .ok bytes then .ok () else .error failure)
  else fails failure

/-- `atomic_write` -/
def atomicWrite (place : Place) (bytes : Bytes) : Storing Unit := do
  let temp ← tempPath place.folder
  writeNew temp bytes
  match ← attempt (tryAsk (.rename temp place) io) with
  | .ok () => syncParent place
  | .error failure => afterRefusal place temp bytes failure

/-- What the operation ends in, unless unlocking fails. -/
def unlocked {α : Type} : Except Failure α → Except Failure Unit → Except Failure α
  | .ok value, .ok () => .ok value
  | .error failure, _ => .error failure
  | .ok _, .error failure => .error failure

/-- `with_mutation_lock`; where unlocking fails, closing the lock's file lets
go of it. -/
def withMutationLock {α : Type} (operation : Storing α) : Storing α := do
  tryAsk .openLock io
  tryAsk .lock io
  let result ← attempt operation
  let unlock ← attempt (tryAsk .unlock io)
  settled (unlocked result unlock)

section Operations

variable (f : Format)

/-! ## Blobs -/

/-- `read_blob` -/
def readBlob (digest : Text) : Storing Bytes := do
  checked (.blob digest)
  let bytes ← tryAsk (.read (.blob digest)) io
  settled (if f.digest bytes = digest then .ok bytes else .error (.corrupt digest (f.digest bytes)))

/-- `blob_temp_path` -/
def blobTempPath (digest : Text) : Storing Place := do
  checked (.blob digest)
  tempPath (Place.blob digest).folder

def moveBlob (expected : Text) (temp : Place) : Storing Bool := do
  tryAsk (.rename temp (.blob expected)) io
  syncParent (.blob expected)
  return true

/-- What `commit_blob` does under the lock. A copy that does not verify is
removed. -/
def placeBlob (expected : Text) (temp : Place) : Storing Bool := do
  let there ← tryAsk (.exists (.blob expected)) .ok
  if there then
    match ← attempt (readBlob f expected) with
    | .ok _ =>
      tryAsk (.touch expected) io
      return false
    | .error _ =>
      tryAsk (.remove (.blob expected)) io
      moveBlob expected temp
  else moveBlob expected temp

def dropUnless (committed : Except Failure Bool) (temp : Place) : Storing Unit :=
  if committed = .ok true then pure ()
  else do
    let _ ← attempt (tryAsk (.remove temp) io)
    return ()

/-- `commit_blob` -/
def commitBlob (expected : Text) (temp : Place) : Storing Bool := do
  checked (.blob expected)
  let committed ← attempt (withMutationLock (placeBlob f expected temp))
  dropUnless committed temp
  settled committed

def dropTemp {α : Type} (temp : Place) (failure : Failure) : Storing α := do
  let _ ← attempt (tryAsk (.remove temp) io)
  fails failure

/-- `put_blob` -/
def putBlob (expected : Text) (bytes : Bytes) : Storing Bool :=
  if f.digest bytes = expected then do
    let temp ← blobTempPath expected
    match ← attempt (writeNew temp bytes) with
    | .ok () => commitBlob f expected temp
    | .error failure => dropTemp temp failure
  else fails (.mismatch expected (f.digest bytes))

/-- The chunks of an upload, up to a limit. -/
def receiveChunks (file limit : Nat) : Bytes → List (Except String Bytes) → Storing Bytes
  | received, [] => pure received
  | _, .error message :: _ => fails (.upload message)
  | received, .ok chunk :: chunks =>
    if limit < received.length + chunk.length then fails .tooLarge
    else do
      tryAsk (.write file chunk) io
      receiveChunks file limit (received ++ chunk) chunks

/-- `receive_blob` -/
def receiveBlob (temp : Place) (body : List (Except String Bytes)) (limit : Nat) : Storing Text := do
  let file ← tryAsk (.createNew temp) io
  let received ← receiveChunks file limit [] body
  tryAsk (.sync file) io
  return f.digest received

/-- The server's `put_blob`. -/
def uploadBlob (digest : Text) (body : List (Except String Bytes)) (limit : Nat) : Storing Bool := do
  let temp ← blobTempPath digest
  match ← attempt (receiveBlob f temp body limit) with
  | .ok actual => if actual = digest then commitBlob f digest temp else dropTemp temp (.mismatch digest actual)
  | .error failure => dropTemp temp failure

/-! ## Records -/

/-- `quarantine_error` -/
def quarantine {α : Type} (path : RecordPath) (failure : Failure) : Storing α := do
  let n ← tryAsk .tempNumber .ok
  let moved ← attempt (do
    tryAsk (.rename (.record path) (.quarantined n)) io
    syncParent (.quarantined n))
  match moved with
  | .ok () => fails (.quarantined path failure)
  | .error second => fails (.unquarantined path failure second)

/-- `validate_record` -/
def validateRecord (path : RecordPath) (value : Contents path) : Storing (Contents path) :=
  if valid f.validators path value then pure value else quarantine path .invalid

/-- `read_json_record`, and what follows it. -/
def readJsonRecord (path : RecordPath) : Storing (Contents path) := do
  let bytes ← tryAsk (.read (.record path)) io
  match f.decode path bytes with
  | .ok value => validateRecord f path value
  | .error message => quarantine path (.undecodable message)

def readRecord (path : RecordPath) : Storing (Option (Contents path)) := do
  checked (.record path)
  let there ← tryAsk (.exists (.record path)) .ok
  if there then
    let value ← readJsonRecord f path
    return some value
  else pure none

/-- `read_candidates` -/
def readCandidates (staticKey : Text) : Storing (List ActionCandidate) := do
  let index ← readRecord f (.action staticKey)
  return index.getD []

/-- `read_declared` -/
def readDeclared (key : Text) : Storing (Option DeclaredActionRecord) := readRecord f (.declared key)

/-- `read_archive` -/
def readArchive (name : Text) : Storing (Option ArchiveManifest) := readRecord f (.archive name)

/-- `atomic_write` of a record. -/
def writeRecord (path : RecordPath) (value : Contents path) : Storing Unit :=
  atomicWrite (.record path) (f.encode path value)

/-- `put_candidate_unlocked` -/
def putCandidateUnlocked (c : ActionCandidate) (maxCandidates : Nat) : Storing Unit := do
  checked (.record (.action c.staticKey))
  createDirs (.actions (c.staticKey.take 2))
  let index ← readCandidates f c.staticKey
  writeRecord f (.action c.staticKey) (Store.updatedIndex maxCandidates c index)
  tryAsk (.recordUse c.staticKey c.actionKey) io

/-- `put_candidate` -/
def putCandidate (c : ActionCandidate) (maxCandidates : Nat) : Storing Unit :=
  if f.validators.candidate c then withMutationLock (putCandidateUnlocked f c maxCandidates) else fails .invalid

/-- `put_declared_unlocked` -/
def putDeclaredUnlocked (r : DeclaredActionRecord) : Storing Bool := do
  checked (.record (.declared r.key))
  match ← readDeclared f r.key with
  | some existing => settled (if existing = r then .ok false else .error .declaredConflict)
  | none =>
    createDirs (.declared (r.key.take 2))
    writeRecord f (.declared r.key) r
    return true

/-- `put_declared` -/
def putDeclared (r : DeclaredActionRecord) : Storing Bool :=
  if f.validators.declared r then withMutationLock (putDeclaredUnlocked f r) else fails .invalid

/-- `put_archive_unlocked` -/
def putArchiveUnlocked (m : ArchiveManifest) : Storing Bool := do
  checked (.record (.archive m.name))
  match ← readArchive f m.name with
  | some existing => settled (if existing.treeDigest = m.treeDigest then .ok false else .error .archiveConflict)
  | none =>
    writeRecord f (.archive m.name) m
    return true

/-- `put_archive` -/
def putArchive (m : ArchiveManifest) : Storing Bool :=
  if f.validators.archive m then withMutationLock (putArchiveUnlocked f m) else fails .invalid

def removeDeclaredUnlocked (key : Text) : Storing Bool := do
  let there ← tryAsk (.exists (.record (.declared key))) .ok
  if there then
    tryAsk (.remove (.record (.declared key))) io
    syncParent (.record (.declared key))
    return true
  else pure false

/-- `remove_declared` -/
def removeDeclared (key : Text) : Storing Bool := do
  checked (.record (.declared key))
  withMutationLock (removeDeclaredUnlocked key)

/-! ## A collection -/

/-- The blobs of the indexes; an index that cannot be read is passed over. -/
def readIndexes : List Text → Storing (List Text)
  | [] => pure []
  | key :: keys => do
    let index ← attempt (readCandidates f key)
    let rest ← readIndexes keys
    return (index.toOption.getD []).flatMap (fun c => (Record.candidate c).digests) ++ rest

/-- What has been used since the journal was rotated. -/
structure Used where
  uses : List (Text × Text)
  blobs : List Text
  deriving DecidableEq, Repr

/-- `Recent::refresh` -/
def refresh : Storing Used := do
  let uses ← tryAsk .recentUses io
  let blobs ← readIndexes f (uses.map (·.1))
  return ⟨uses, blobs⟩

/-- What an eviction leaves of an index. -/
def keptOf (units : List GcUnit) (uses : List (Text × Text)) (index : List ActionCandidate) : List ActionCandidate :=
  index.filter fun c => !units.any (Store.evicts uses c)

/-- The new index in the place of the old one. -/
def replaceIndex (key : Text) (index kept : List ActionCandidate) : Storing Unit :=
  if kept.length = index.length then pure ()
  else if kept = [] then do
    let _ ← tryAsk (.remove (.record (.action key))) removed
    return ()
  else writeRecord f (.action key) kept

/-- `evict_from` an index that is not evicted whole. -/
def evictCandidates (key : Text) (units : List GcUnit) (uses : List (Text × Text)) : Storing Unit := do
  match ← attempt (tryAsk (.read (.record (.action key))) io) with
  | .error (.io .notFound) => return ()
  | .error failure => fails failure
  | .ok bytes =>
    match f.decode (.action key) bytes with
    | .error _ => return ()
    | .ok index => replaceIndex f key index (keptOf units uses index)

/-- `evict_from`; only units of an index are candidates. -/
def evictFrom (uses : List (Text × Text)) (file : RecordPath × List GcUnit) : Storing Unit :=
  if file.2.all (·.candidate.isNone) then do
    let _ ← tryAsk (.remove (.record file.1)) removed
    return ()
  else match file.1 with
    | .action key => evictCandidates f key file.2 uses
    | _ => pure ()

/-- One batch of evictions. -/
def evictBatch (batch : List (RecordPath × List GcUnit)) : Storing Unit := withMutationLock (do
  let recent ← refresh f
  batch.forM (evictFrom f recent.uses))

/-- The modification time; `none` if the file is gone. -/
def modifiedMs : Except IoError (Option Nat) → Except Failure (Option Nat)
  | .ok modified => .ok (some (modified.getD U64_MAX))
  | .error .notFound => .ok none
  | .error error => .error (.io error)

/-- A blob is removed unless it was used since the collection started. -/
def sweepBlob (startedMs : Nat) (recent : List Text) (digest : Text) : Storing Unit := do
  checked (.blob digest)
  match ← tryAsk (.modified (.blob digest)) modifiedMs with
  | none => pure ()
  | some ms =>
    if startedMs ≤ saturatingAdd ms COARSE_CLOCK_SLACK_MS ∨ digest ∈ recent then pure ()
    else do
      let _ ← tryAsk (.remove (.blob digest)) removed
      return ()

/-- One batch of deletions. -/
def sweepBatch (startedMs : Nat) (digests : List Text) : Storing Unit := withMutationLock (do
  let recent ← refresh f
  digests.forM (sweepBlob startedMs recent.blobs))

/-- `remove_orphan_temps` -/
def removeOrphanTemps : Storing Unit := do
  let temps ← tryAsk .oldTemps io
  temps.forM fun temp => tryAsk (.remove (.temp temp.1 temp.2)) io

/-! ## Operations -/

end Operations

inductive Op where
  | putBlob (expected : Text) (bytes : Bytes)
  | uploadBlob (digest : Text) (body : List (Except String Bytes)) (limit : Nat)
  | readBlob (digest : Text)
  | putCandidate (c : ActionCandidate) (maxCandidates : Nat)
  | putDeclared (r : DeclaredActionRecord)
  | putArchive (m : ArchiveManifest)
  | removeDeclared (key : Text)
  | readRecord (path : RecordPath)
  | evictBatch (batch : List (RecordPath × List GcUnit))
  | sweepBatch (startedMs : Nat) (digests : List Text)
  | removeOrphanTemps

/-- The operation's program. -/
def Op.program (f : Format) : Op → Storing Bool
  | .putBlob expected bytes => DiskStore.putBlob f expected bytes
  | .uploadBlob digest body limit => DiskStore.uploadBlob f digest body limit
  | .readBlob digest => do
    let _ ← DiskStore.readBlob f digest
    return true
  | .putCandidate c maxCandidates => do
    DiskStore.putCandidate f c maxCandidates
    return true
  | .putDeclared r => DiskStore.putDeclared f r
  | .putArchive m => DiskStore.putArchive f m
  | .removeDeclared key => DiskStore.removeDeclared key
  | .readRecord path => do
    let _ ← DiskStore.readRecord f path
    return true
  | .evictBatch batch => do
    DiskStore.evictBatch f batch
    return true
  | .sweepBatch startedMs digests => do
    DiskStore.sweepBatch f startedMs digests
    return true
  | .removeOrphanTemps => do
    DiskStore.removeOrphanTemps
    return true

end Bellows.Core.DiskStore
