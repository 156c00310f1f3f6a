/-
The store on disk and what is done to it under its mutation lock: blobs,
record files, and the journal of uses.

Every record file decodes; a record that does not validate is quarantined, as
the readers do, which for the store means that its file is gone. Where a file
operation fails, the function that made it ends, which is a step of what calls
it; two failures that do not end it are here: an append cut short
(`Journal.cutShort`), and a refresh that passes over what it cannot read
(`Recent.readIndex`). Times are what the clock or the file system says when
the operation runs.
-/
import Bellows.Core.Gc
import Bellows.Lib.Assoc

namespace Bellows.Core

/-! ## The journal -/

structure Use where
  staticKey : Text
  actionKey : Text
  ms : Nat
  deriving DecidableEq, Repr

/-- A file of the journal. -/
structure JournalFile where
  /-- The uses in its whole lines. -/
  lines : List Use
  /-- It ends within a line, whose append was cut short: the use that what is
  there of the line tells, if any. -/
  unfinished : Option (Option Use)
  deriving DecidableEq, Repr

namespace JournalFile

def empty : JournalFile := ⟨[], none⟩

/-- What is appended to an unfinished line makes one with it that does not
parse. -/
def append (file : JournalFile) (use : Use) : JournalFile :=
  match file.unfinished with
  | none => { file with lines := file.lines ++ [use] }
  | some _ => { file with unfinished := none }

/-- Only the beginning of a line is appended. -/
def cutShort (file : JournalFile) (told : Option Use) : JournalFile :=
  { file with unfinished := some (if file.unfinished.isSome then none else told) }

/-- `parse_lines` of the whole file. -/
def uses (file : JournalFile) : List Use := file.lines ++ file.unfinished.join.toList

end JournalFile

/-- The files of the journal. A handle opened on `journal.log` keeps writing
to that file after it is renamed, and to nothing once it is removed. -/
structure Journal where
  /-- Which file is, or will be created as, `journal.log`. -/
  generation : Nat
  /-- `journal.log`, if it exists. -/
  log : Option JournalFile
  /-- The other `.log` files: rotated ones, by generation, and compacted ones. -/
  older : List (Option Nat × JournalFile)
  deriving DecidableEq, Repr

namespace Journal

def file (j : Journal) : JournalFile := j.log.getD .empty

/-- The uses in the whole lines of `journal.log`. -/
def lines (j : Journal) : List Use := j.file.lines

/-- Opening creates the file; the handle names its generation. -/
def opened (j : Journal) : Journal := { j with log := some j.file }

/-- What is written through a handle. -/
def write (j : Journal) (handle : Nat) (f : JournalFile → JournalFile) : Journal :=
  if handle = j.generation then { j with log := some (f j.file) }
  else { j with older := j.older.map fun file => if file.1 = some handle then (file.1, f file.2) else file }

def append (j : Journal) (handle : Nat) (use : Use) : Journal := j.write handle (·.append use)

def cutShort (j : Journal) (handle : Nat) (told : Option Use) : Journal := j.write handle (·.cutShort told)

/-- `rotate_journal` -/
def rotate (j : Journal) : Journal :=
  match j.log with
  | none => j
  | some file => { generation := j.generation + 1, log := none, older := (some j.generation, file) :: j.older }

/-- `read_journal`: the uses in every file. -/
def uses (j : Journal) : Uses :=
  (j.file.uses ++ j.older.flatMap (·.2.uses)).map fun use => ((use.staticKey, use.actionKey), use.ms)

/-- `compact_journal`, given the surviving uses: one file in the place of all
but `journal.log`. -/
def compact (j : Journal) (surviving : List Use) : Journal :=
  { j with older := if surviving = [] then [] else [(none, ⟨surviving, none⟩)] }

end Journal

/-! ## The store -/

structure Blob where
  bytes : Nat
  modifiedMs : Nat
  /-- Its content hashes to its name. -/
  intact : Bool
  deriving DecidableEq, Repr

structure Store where
  blobs : Assoc Text Blob
  actions : Assoc Text (List ActionCandidate)
  /-- With the modification time of the file. -/
  declared : Assoc Text (DeclaredActionRecord × Nat)
  archives : Assoc Text (ArchiveManifest × Nat)
  journal : Journal

/-- The validation of each kind of record. -/
structure Validators where
  /-- `validate_candidate_manifest` -/
  candidate : ActionCandidate → Bool
  /-- `validate_declared_record` -/
  declared : DeclaredActionRecord → Bool
  /-- `validate_archive_manifest` -/
  archive : ArchiveManifest → Bool

def Validators.accepts (v : Validators) : Record → Bool
  | .candidate c => v.candidate c
  | .declared r => v.declared r
  | .archive m => v.archive m

namespace Store

variable (v : Validators) (s : Store)

/-- The records in a file. -/
def recordsAt : RecordPath → List Record
  | .action key => ((s.actions.lookup key).getD []).map .candidate
  | .declared key => ((s.declared.lookup key).map fun file => Record.declared file.1).toList
  | .archive name => ((s.archives.lookup name).map fun file => Record.archive file.1).toList

/-- The record files in a directory. -/
def paths : Directory → List RecordPath
  | .actions => s.actions.keys.map .action
  | .declared => s.declared.keys.map .declared
  | .archives => s.archives.keys.map .archive

/-- `modified_ms` of a record file; an index's is never asked for. -/
def modifiedMs : RecordPath → Nat
  | .action _ => 0
  | .declared key => ((s.declared.lookup key).map (·.2)).getD 0
  | .archive name => ((s.archives.lookup name).map (·.2)).getD 0

def remove : RecordPath → Store
  | .action key => { s with actions := s.actions.erase key }
  | .declared key => { s with declared := s.declared.erase key }
  | .archive name => { s with archives := s.archives.erase name }

/-- `read_blob` succeeds. -/
def hasBlob (digest : Text) : Bool := (s.blobs.lookup digest).any (·.intact)

/-- `touch_blob`; `none` if the file is gone. -/
def touchBlob (digest : Text) (now : Nat) : Option Store :=
  (s.blobs.lookup digest).map fun blob =>
    { s with blobs := s.blobs.insert digest { blob with modifiedMs := now } }

/-- A verified file moved into place. -/
def placeBlob (digest : Text) (bytes now : Nat) : Store :=
  { s with blobs := s.blobs.insert digest ⟨bytes, now, true⟩ }

def removeBlob (digest : Text) : Store := { s with blobs := s.blobs.erase digest }

/-! ### Candidates -/

def validIndex (key : Text) (index : List ActionCandidate) : Bool :=
  decide (index.length ≤ 1024) && index.all fun c => v.candidate c && c.staticKey == key

/-- `read_candidates`: the index, or `none` and the file quarantined. -/
def readCandidates (key : Text) : Option (List ActionCandidate) × Store :=
  match s.actions.lookup key with
  | none => (some [], s)
  | some index => if validIndex v key index then (some index, s) else (none, s.remove (.action key))

/-- The index `put_candidate_unlocked` writes. -/
def updatedIndex (maxCandidates : Nat) (c : ActionCandidate) (index : List ActionCandidate) :
    List ActionCandidate :=
  (c :: index.filter fun other => other.actionKey ≠ c.actionKey).take (max maxCandidates 1)

/-- `put_candidate_unlocked` as far as the index; whether it goes on to the
journal. -/
def writeCandidate (maxCandidates : Nat) (c : ActionCandidate) : Bool × Store :=
  match s.readCandidates v c.staticKey with
  | (none, s') => (false, s')
  | (some index, s') =>
    (true, { s' with actions := s'.actions.insert c.staticKey (updatedIndex maxCandidates c index) })

/-! ### Declared actions and archives -/

/-- `read_declared`: the record, if there is a file; `none` if it is
quarantined. -/
def readDeclared (key : Text) : Option (Option DeclaredActionRecord) × Store :=
  match s.declared.lookup key with
  | none => (some none, s)
  | some file =>
    if v.declared file.1 && file.1.key == key then (some (some file.1), s) else (none, s.remove (.declared key))

/-- `put_declared_unlocked`: a key is written once. -/
def writeDeclared (r : DeclaredActionRecord) (now : Nat) : Store :=
  match s.readDeclared v r.key with
  | (some none, s') => { s' with declared := s'.declared.insert r.key (r, now) }
  | (_, s') => s'

/-- `read_archive` -/
def readArchive (name : Text) : Option (Option ArchiveManifest) × Store :=
  match s.archives.lookup name with
  | none => (some none, s)
  | some file =>
    if v.archive file.1 && file.1.name == name then (some (some file.1), s) else (none, s.remove (.archive name))

/-- `put_archive_unlocked`: a name is bound once. -/
def writeArchive (m : ArchiveManifest) (now : Nat) : Store :=
  match s.readArchive v m.name with
  | (some none, s') => { s' with archives := s'.archives.insert m.name (m, now) }
  | (_, s') => s'

/-! ### What a put answers -/

inductive PutError where
  /-- The record does not validate. -/
  | invalid
  /-- The record in its place did not, and is quarantined. -/
  | quarantined
  /-- "declared action key already exists with different content", "archive
  name is already bound to a different tree" -/
  | conflict
  deriving DecidableEq, Repr

/-- `put_declared`: whether the record is new. An existing one must be equal
to it, creation time and duration included. -/
def putDeclared (r : DeclaredActionRecord) (now : Nat) : Except PutError Bool × Store :=
  if v.declared r then
    match s.readDeclared v r.key with
    | (none, s') => (.error .quarantined, s')
    | (some (some existing), s') => (if existing = r then .ok false else .error .conflict, s')
    | (some none, s') => (.ok true, { s' with declared := s'.declared.insert r.key (r, now) })
  else (.error .invalid, s)

/-- `put_archive`: whether the name is new. An existing one must be bound to
the same tree. -/
def putArchive (m : ArchiveManifest) (now : Nat) : Except PutError Bool × Store :=
  if v.archive m then
    match s.readArchive v m.name with
    | (none, s') => (.error .quarantined, s')
    | (some (some existing), s') =>
      (if existing.treeDigest = m.treeDigest then .ok false else .error .conflict, s')
    | (some none, s') => (.ok true, { s' with archives := s'.archives.insert m.name (m, now) })
  else (.error .invalid, s)

/-! ### What a collection does -/

/-- Whether a unit names the candidate, and it was not used since. -/
def evicts (uses : List (Text × Text)) (c : ActionCandidate) (unit : GcUnit) : Bool :=
  unit.candidate == some (c.actionKey, c.createdMs) && !((c.staticKey, c.actionKey) ∈ uses)

/-- `evict_from` -/
def evictFrom (uses : List (Text × Text)) (path : RecordPath) (units : List GcUnit) : Store :=
  if units.all (·.candidate.isNone) then s.remove path
  else match path with
    | .action key =>
      match s.actions.lookup key with
      | none => s
      | some index =>
        let kept := index.filter fun c => !units.any (evicts uses c)
        if kept.length = index.length then s
        else if kept = [] then s.remove path
        else { s with actions := s.actions.insert key kept }
    | _ => s

end Store

/-! ## Recent uses -/

/-- What has been published or reused since the journal was rotated. -/
structure Recent where
  /-- How many lines have been read. -/
  offset : Nat
  uses : List (Text × Text)
  blobs : List Text
  deriving DecidableEq, Repr

namespace Recent

def empty : Recent := ⟨0, [], []⟩

/-- One index that the new lines name; one of the `failing` ones cannot be
read, and is passed over as one that does not validate is. -/
def readIndex (v : Validators) (failing : List Text) (r : Recent × Store) (key : Text) : Recent × Store :=
  if key ∈ failing then r
  else match r.2.readCandidates v key with
    | (none, s) => (r.1, s)
    | (some index, s) =>
      ({ r.1 with blobs := r.1.blobs ++ index.flatMap fun c => (Record.candidate c).digests }, s)

/-- The whole lines appended since the last refresh. -/
def unread (r : Recent) (s : Store) : List Use := s.journal.lines.drop r.offset

/-- With the new lines read. -/
def caughtUp (r : Recent) (s : Store) : Recent where
  offset := s.journal.lines.length
  uses := r.uses ++ (r.unread s).map fun use => (use.staticKey, use.actionKey)
  blobs := r.blobs

/-- `Recent::refresh`: the new lines, then each index they name. An index
whose file cannot be read stops it as little as one that does not validate:
its uses are noted, and its blobs are not. -/
def refresh (v : Validators) (failing : List Text) (r : Recent) (s : Store) : Recent × Store :=
  ((r.unread s).map (·.staticKey)).dedup.foldl (readIndex v failing) (r.caughtUp s, s)

end Recent

end Bellows.Core
