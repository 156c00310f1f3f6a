/-
A store in use while collections run: requests and the collections, a step at
a time, in any order.

A job is what one request (of the server) or one wrapper process is at. Steps
under a lock wait until it is free; a step that finishes what a lock guards
also releases it. A job may stop between any two steps, as its client goes
away, its process is killed or an operation fails, and so may a collection.
Four failures stop nothing: an append may be cut short (`cutShort`), a refresh
goes on past an index that it cannot read (`passOver`), a scan takes a
directory that it cannot look at for one that is not there (`overlook`), and a
put takes a blob that it cannot read for a corrupt one (`misread`).

A scan lists a directory one subdirectory after another, with other steps in
between.

`serialize` tells the two uses of a store apart. A server runs every batch of a
collection under its `writes` lock, and one collection at a time, number 0. A
local store's batches have the mutation lock alone, and nothing keeps one
collection from beginning while others are under way.
-/
import Mathlib.Data.Char
import Mathlib.Data.List.Lex
import Mathlib.Data.List.Perm.Basic
import Bellows.Core.Store

namespace Bellows.Collect

open Bellows.Core

/-! ## Jobs -/

inductive Request where
  | getCandidates (staticKey : Text)
  | getDeclared (key : Text)
  | getArchive (name : Text)
  | headBlob (digest : Text)
  | putBlob (digest : Text) (bytes : Nat)
  | recordUse (staticKey actionKey : Text)
  | storeCandidate (c : ActionCandidate)
  | putDeclared (r : DeclaredActionRecord)
  | putArchive (m : ArchiveManifest)
  /-- `execute_declared`, with the record it will make and the blobs of its
  outputs and streams. -/
  | execute (r : DeclaredActionRecord) (blobs : List (Text × Nat))
  /-- `cache_captured` of a wrapper process. -/
  | cacheCaptured (c : ActionCandidate) (blobs : List (Text × Nat))
  deriving DecidableEq, Repr

/-- What a server serves; the rest is what wrappers do to a local store. -/
def Request.served (serialize : Bool) : Request → Bool
  | .getCandidates _ | .putBlob _ _ | .recordUse _ _ => true
  | .getDeclared _ | .getArchive _ | .headBlob _ | .storeCandidate _ | .putDeclared _ | .putArchive _
  | .execute _ _ => serialize
  | .cacheCaptured _ _ => !serialize

inductive Job where
  | idle
  /-- `head_blob` has read the blob; it touches it next. -/
  | touching (digest : Text)
  /-- Blobs still to put, and the record to put after them. -/
  | storing (left : List (Text × Nat)) (goal : Option Record)
  /-- `commit_blob` has removed a copy that it could not verify; under the
  mutation lock. -/
  | replacing (digest : Text) (bytes : Nat) (left : List (Text × Nat)) (goal : Option Record)
  /-- Blobs still to read back before the record is put, with the length to
  find; under `writes`. -/
  | checking (left : List (Text × Option Nat)) (goal : Record)
  /-- Inputs still to read before the command runs. -/
  | executing (left : List Text) (r : DeclaredActionRecord) (blobs : List (Text × Nat))
  /-- The candidate's index is written; its use is appended to the journal
  next. Under the mutation lock, and `writes` if `locked`. -/
  | announcing (locked : Bool) (c : ActionCandidate) (handle : Option Nat)
  /-- `record_use` of a request. -/
  | recording (staticKey actionKey : Text) (handle : Option Nat)
  deriving DecidableEq, Repr

/-- What a publication reads back: every blob, and its streams' lengths. -/
def blobsToCheck : Record → List (Text × Option Nat)
  | .candidate c => c.artifacts.map (fun a => (a.digest, none)) ++
      [c.stdout, c.stderr].map fun stream => (stream.digest, some stream.len)
  | .declared r => (r.inputs ++ r.outputs).map (fun a => (a.digest, none)) ++
      [r.stdout, r.stderr].map fun stream => (stream.digest, some stream.len)
  | .archive m => m.files.map fun a => (a.digest, none)

/-! ## The collection -/

/-- What the read-only pass has found. -/
structure Scan where
  options : GcOptions
  startedMs : Nat
  uses : Uses
  blobs : List GcBlob
  /-- The record files, in the order they were listed. -/
  listing : List RecordPath
  /-- Their records, in the order the files were read. -/
  scanned : List Scanned

/-- The subdirectory a record file is in; the archives are in their directory
itself. -/
def subdirectory : RecordPath → Text
  | .action key | .declared key => key.take 2
  | .archive _ => []

/-- The components of a record file's path, which order the batches. -/
def pathComponents : RecordPath → List Text
  | .action key => ["actions".toList, key.take 2, key ++ ".json".toList]
  | .archive name => ["archives".toList, name ++ ".json".toList]
  | .declared key => ["declared".toList, key.take 2, key ++ ".json".toList]

namespace Scan

variable (scan : Scan)

def records : List Scanned := scan.listing.flatMap fun path => scan.scanned.filter (·.path == path)

def snapshot : Snapshot := Snapshot.read scan.uses scan.blobs scan.records scan.startedMs

def plan : Plan := Plan.new scan.snapshot scan.options scan.startedMs

def evictedUnits : List GcUnit :=
  (scan.snapshot.units.zipIdx.filter fun entry => scan.plan.evicted entry.2).map (·.1)

/-- `by_path` of `Plan::apply`. -/
def evictions : List (RecordPath × List GcUnit) :=
  ((scan.evictedUnits.map (·.path)).dedup.insertionSort fun a b => pathComponents a ≤ pathComponents b).map
    fun path => (path, scan.evictedUnits.filter (·.path == path))

/-- The digests of the blobs to delete. -/
def selected : List Text := scan.plan.selected.filterMap fun blob => scan.snapshot.blobs[blob]?.map (·.digest)

/-- What `compact_journal` keeps of the journals. -/
def surviving : List Use :=
  (scan.snapshot.units.zipIdx.filter fun entry => !scan.plan.evicted entry.2).filterMap fun entry =>
    match entry.1.staticKey, entry.1.candidate with
    | some key, some (action, created) =>
      if created < entry.1.lastUsedMs then some ⟨key, action, entry.1.lastUsedMs⟩ else none
    | _, _ => none

end Scan

/-- Where the read-only pass is. -/
inductive ScanPhase where
  | rotating
  | reading
  | listingBlobs
  /-- Subdirectories still to list, and the blobs found in the others. -/
  | blobShards (left found : List Text)
  | blobs (left : List Text)
  | listing (dir : Directory)
  /-- The same of a directory of records. -/
  | shards (dir : Directory) (left : List Text) (found : List RecordPath)
  /-- Record files of a directory still to read, in any order. -/
  | records (dir : Directory) (left : List RecordPath)
  deriving DecidableEq, Repr

/-- The phase after one whose directory or file is not seen to be there. -/
def ScanPhase.missed : ScanPhase → Option ScanPhase
  | .rotating => some .reading
  | .reading => some .listingBlobs
  | .listingBlobs => some (.blobs [])
  | .blobShards (_ :: left) found => some (.blobShards left found)
  | .listing dir => some (.records dir [])
  | .shards dir (_ :: left) found => some (.shards dir left found)
  | _ => none

/-- Where the plan's application is. A batch under way holds the locks. -/
inductive ApplyPhase where
  | evicting (left : List (RecordPath × List GcUnit))
  | evictBatch (now left : List (RecordPath × List GcUnit))
  | freeing (left : List Text)
  | freeBatch (now left : List Text)
  /-- The blob was found deletable; its file is removed next. -/
  | removing (digest : Text) (now left : List Text)
  | compacting
  deriving DecidableEq, Repr

inductive Collector where
  | idle
  | scanning (scan : Scan) (phase : ScanPhase)
  | applying (scan : Scan) (recent : Recent) (phase : ApplyPhase)

/-! ## States -/

inductive Holder where
  | job (id : Nat)
  | collector (id : Nat)
  deriving DecidableEq, Repr

structure State where
  store : Store
  writes : Option Holder
  mutation : Option Holder
  jobs : Nat → Job
  collectors : Nat → Collector

structure Config where
  serialize : Bool
  validators : Validators
  maxCandidates : Nat

/-- A store nobody uses. -/
def State.init (store : Store) : State := ⟨store, none, none, fun _ => .idle, fun _ => .idle⟩

inductive Event where
  | start (id : Nat) (request : Request)
  /-- The next step of a job; `now` is what the clock says. -/
  | proceed (id : Nat) (now : Nat)
  | giveUp (id : Nat)
  /-- A job ends as it appends to the journal; of the time in its line, what
  was `told` is there. -/
  | cutShort (id : Nat) (told : Option Nat)
  /-- A put replaces an intact blob that it cannot read. -/
  | misread (id : Nat)
  | collect (id : Nat) (options : GcOptions) (now : Nat)
  /-- A directory's subdirectories are found; some may hold nothing yet. -/
  | enter (id : Nat) (shards : List Text)
  | listBlobs (id : Nat) (order : List Text)
  | listRecords (id : Nat) (order : List RecordPath)
  | overlook (id : Nat)
  /-- A record is read; its file's modification time is looked up later. -/
  | readRecord (id : Nat) (path : RecordPath) (modifiedMs : Nat)
  /-- Any other step of a collection. -/
  | advance (id : Nat)
  /-- A batch begins, and its refresh cannot read these indexes. -/
  | passOver (id : Nat) (failing : List Text)
  | abandon (id : Nat)
  deriving DecidableEq, Repr

namespace State

variable (cfg : Config) (s : State)

/-- The locks a holder has are given back. -/
def release (holder : Holder) : State :=
  { s with
    writes := if s.writes = some holder then none else s.writes
    mutation := if s.mutation = some holder then none else s.mutation }

def setJob (id : Nat) (job : Job) : State := { s with jobs := Function.update s.jobs id job }

def setCollector (id : Nat) (collector : Collector) : State :=
  { s with collectors := Function.update s.collectors id collector }

/-- A job that is over, with its locks given back. -/
def finish (id : Nat) : State := (s.setJob id .idle).release (.job id)

/-! ### Requests -/

/-- The `writes` lock is taken, and the record's blobs are read back. -/
def startChecking (id : Nat) (valid : Bool) (goal : Record) : Option State :=
  if s.writes ≠ none then none
  else if valid then
    some { s with writes := some (.job id), jobs := Function.update s.jobs id (.checking (blobsToCheck goal) goal) }
  else some s

def start (id : Nat) (request : Request) : Option State :=
  if s.jobs id ≠ .idle ∨ request.served cfg.serialize = false then none
  else match request with
    | .getCandidates key => some { s with store := (s.store.readCandidates cfg.validators key).2 }
    | .getDeclared key => some { s with store := (s.store.readDeclared cfg.validators key).2 }
    | .getArchive name => some { s with store := (s.store.readArchive cfg.validators name).2 }
    | .headBlob digest => some (if s.store.hasBlob digest then s.setJob id (.touching digest) else s)
    | .putBlob digest bytes => some (s.setJob id (.storing [(digest, bytes)] none))
    | .recordUse staticKey actionKey => some (s.setJob id (.recording staticKey actionKey none))
    | .storeCandidate c => s.startChecking id (cfg.validators.candidate c) (.candidate c)
    | .putDeclared r => s.startChecking id (cfg.validators.declared r) (.declared r)
    | .putArchive m => s.startChecking id (cfg.validators.archive m) (.archive m)
    | .execute r blobs =>
      if ¬ r.outputs.map (·.digest) ++ [r.stdout.digest, r.stderr.digest] ⊆ blobs.map (·.1) then none
      else match s.store.readDeclared cfg.validators r.key with
        | (some none, _) => some (s.setJob id (.executing (r.inputs.map (·.digest)) r blobs))
        -- a cache hit, or an error
        | (_, store) => some { s with store := store }
    | .cacheCaptured c blobs =>
      if (Record.candidate c).digests ⊆ blobs.map (·.1) then some (s.setJob id (.storing blobs (some (.candidate c))))
      else none

/-- `put_candidate`, `put_declared`, `put_archive`: under the mutation lock,
which a candidate keeps until its use is in the journal. -/
def publish (id : Nat) (locked : Bool) (goal : Record) (now : Nat) : Option State :=
  if s.mutation ≠ none then none
  else match goal with
    | .candidate c =>
      if cfg.validators.candidate c then
        match s.store.writeCandidate cfg.validators cfg.maxCandidates c with
        | (true, store) =>
          some { s with
            store := store, mutation := some (.job id), jobs := Function.update s.jobs id (.announcing locked c none) }
        | (false, store) => some ({ s with store := store }.finish id)
      else some (s.finish id)
    | .declared r =>
      some ((if cfg.validators.declared r then
        { s with store := s.store.writeDeclared cfg.validators r now } else s).finish id)
    | .archive m =>
      some ((if cfg.validators.archive m then
        { s with store := s.store.writeArchive cfg.validators m now } else s).finish id)

/-- The first half of a replacement. -/
def discardBlob (id : Nat) (digest : Text) (bytes : Nat) (left : List (Text × Nat)) (goal : Option Record) : State :=
  { s.setJob id (.replacing digest bytes left goal) with
    store := s.store.removeBlob digest, mutation := some (.job id) }

/-- `commit_blob`, but for the second half of a replacement. -/
def commitBlob (id : Nat) (digest : Text) (bytes : Nat) (left : List (Text × Nat)) (goal : Option Record)
    (now : Nat) : Option State :=
  if s.mutation ≠ none then none
  else match s.store.blobs.lookup digest with
    | none => some { s.setJob id (.storing left goal) with store := s.store.placeBlob digest bytes now }
    | some blob =>
      if blob.intact then
        some { s.setJob id (.storing left goal) with store := (s.store.touchBlob digest now).getD s.store }
      else some (s.discardBlob id digest bytes left goal)

/-- `read_blob`, and the length it should have. -/
def checks (digest : Text) (len : Option Nat) : Bool :=
  (s.store.blobs.lookup digest).any fun blob => blob.intact && len.all (· == blob.bytes)

def proceed (id : Nat) (now : Nat) : Option State :=
  match s.jobs id with
  | .idle => none
  | .touching digest => some { s.finish id with store := (s.store.touchBlob digest now).getD s.store }
  | .storing [] none => some (s.finish id)
  | .storing [] (some goal) => s.publish cfg id false goal now
  | .storing ((digest, bytes) :: left) goal => s.commitBlob id digest bytes left goal now
  | .replacing digest bytes left goal =>
    some { (s.setJob id (.storing left goal)).release (.job id) with store := s.store.placeBlob digest bytes now }
  | .checking [] goal => s.publish cfg id true goal now
  | .checking ((digest, len) :: left) goal =>
    some (if s.checks digest len then s.setJob id (.checking left goal) else s.finish id)
  | .executing [] r blobs => some (s.setJob id (.storing blobs (some (.declared r))))
  | .executing (digest :: left) r blobs =>
    some (if s.store.hasBlob digest then s.setJob id (.executing left r blobs) else s.finish id)
  | .announcing locked c none =>
    some { s.setJob id (.announcing locked c (some s.store.journal.generation)) with
      store := { s.store with journal := s.store.journal.opened } }
  | .announcing _ c (some handle) =>
    some { s.finish id with
      store := { s.store with journal := s.store.journal.append handle ⟨c.staticKey, c.actionKey, now⟩ } }
  | .recording staticKey actionKey none =>
    some { s.setJob id (.recording staticKey actionKey (some s.store.journal.generation)) with
      store := { s.store with journal := s.store.journal.opened } }
  | .recording staticKey actionKey (some handle) =>
    some { s.finish id with
      store := { s.store with journal := s.store.journal.append handle ⟨staticKey, actionKey, now⟩ } }

/-- A job may end between any two steps. -/
def giveUp (id : Nat) : Option State :=
  match s.jobs id with
  | .idle => none
  | _ => some (s.finish id)

/-- `write_all` fails, or the process is killed, within a line. -/
def cutShort (id : Nat) (told : Option Nat) : Option State :=
  match s.jobs id with
  | .announcing _ c (some handle) =>
    some { s.finish id with
      store := { s.store with
        journal := s.store.journal.cutShort handle (told.map fun ms => ⟨c.staticKey, c.actionKey, ms⟩) } }
  | .recording staticKey actionKey (some handle) =>
    some { s.finish id with
      store := { s.store with
        journal := s.store.journal.cutShort handle (told.map fun ms => ⟨staticKey, actionKey, ms⟩) } }
  | _ => none

/-- `read_blob` fails in `commit_blob`, of an intact copy. -/
def misread (id : Nat) : Option State :=
  match s.jobs id with
  | .storing ((digest, bytes) :: left) goal =>
    if s.mutation = none ∧ s.store.hasBlob digest = true then some (s.discardBlob id digest bytes left goal) else none
  | _ => none

/-! ### The collections -/

/-- The locks of a batch. -/
def lockBatch (id : Nat) : Option State :=
  if s.mutation ≠ none ∨ cfg.serialize = true ∧ s.writes ≠ none then none
  else some { s with
    mutation := some (.collector id), writes := if cfg.serialize then some (.collector id) else s.writes }

/-- A batch begins: its locks, and what was published since. -/
def beginBatch (id : Nat) (failing : List Text) (scan : Scan) (recent : Recent) (phase : ApplyPhase) : Option State :=
  (s.lockBatch cfg id).map fun s =>
    let (recent, store) := recent.refresh cfg.validators failing s.store
    { s.setCollector id (.applying scan recent phase) with store := store }

def endBatch (id : Nat) (scan : Scan) (recent : Recent) (phase : ApplyPhase) : State :=
  (s.release (.collector id)).setCollector id (.applying scan recent phase)

/-- After the last file of a directory. -/
def nextDirectory (scan : Scan) : Directory → Collector
  | .actions => .scanning scan (.listing .declared)
  | .declared => .scanning scan (.listing .archives)
  | .archives => if scan.options.dryRun then .idle else .applying scan .empty (.evicting scan.evictions)

def advanceScan (id : Nat) (scan : Scan) : ScanPhase → Option State
  | .rotating =>
    some { s.setCollector id (.scanning scan .reading) with
      store := { s.store with journal := s.store.journal.rotate } }
  | .reading => some (s.setCollector id (.scanning { scan with uses := s.store.journal.uses } .listingBlobs))
  | .listingBlobs => none
  | .blobShards [] found => some (s.setCollector id (.scanning scan (.blobs found)))
  | .blobShards (_ :: _) _ => none
  | .blobs [] => some (s.setCollector id (.scanning scan (.listing .actions)))
  | .blobs (digest :: left) =>
    let found := (s.store.blobs.lookup digest).map fun blob => GcBlob.mk digest blob.bytes blob.modifiedMs
    some (s.setCollector id (.scanning { scan with blobs := scan.blobs ++ found.toList } (.blobs left)))
  | .listing _ => none
  | .shards dir [] found =>
    some (s.setCollector id (.scanning { scan with listing := scan.listing ++ found } (.records dir found)))
  | .shards _ (_ :: _) _ => none
  | .records dir [] => some (s.setCollector id (nextDirectory scan dir))
  | .records _ (_ :: _) => none

/-- Whether a blob to delete is kept after all. -/
def spared (scan : Scan) (recent : Recent) (digest : Text) (blob : Blob) : Bool :=
  decide (scan.startedMs ≤ saturatingAdd blob.modifiedMs COARSE_CLOCK_SLACK_MS) || recent.blobs.contains digest

def advanceApply (id : Nat) (failing : List Text) (scan : Scan) (recent : Recent) : ApplyPhase → Option State
  | .evicting [] => some (s.setCollector id (.applying scan recent (.freeing scan.selected)))
  | .evicting left => s.beginBatch cfg id failing scan recent (.evictBatch (left.take BATCH) (left.drop BATCH))
  | .evictBatch [] left => some (s.endBatch id scan recent (.evicting left))
  | .evictBatch ((path, units) :: now) left =>
    some { s.setCollector id (.applying scan recent (.evictBatch now left)) with
      store := s.store.evictFrom recent.uses path units }
  | .freeing [] => some (s.setCollector id (.applying scan recent .compacting))
  | .freeing left => s.beginBatch cfg id failing scan recent (.freeBatch (left.take BATCH) (left.drop BATCH))
  | .freeBatch [] left => some (s.endBatch id scan recent (.freeing left))
  | .freeBatch (digest :: now) left =>
    match s.store.blobs.lookup digest with
    | none => some (s.setCollector id (.applying scan recent (.freeBatch now left)))
    | some blob =>
      if spared scan recent digest blob then some (s.setCollector id (.applying scan recent (.freeBatch now left)))
      else some (s.setCollector id (.applying scan recent (.removing digest now left)))
  | .removing digest now left =>
    some { s.setCollector id (.applying scan recent (.freeBatch now left)) with store := s.store.removeBlob digest }
  | .compacting =>
    some { s.setCollector id .idle with
      store := { s.store with journal := s.store.journal.compact scan.surviving } }

def advance (id : Nat) : Option State :=
  match s.collectors id with
  | .idle => none
  | .scanning scan phase => s.advanceScan id scan phase
  | .applying scan recent phase => s.advanceApply cfg id [] scan recent phase

/-- The step that begins a batch, if that is the next one. -/
def passOver (id : Nat) (failing : List Text) : Option State :=
  match s.collectors id with
  | .applying scan recent (.evicting (file :: left)) => s.advanceApply cfg id failing scan recent (.evicting (file :: left))
  | .applying scan recent (.freeing (digest :: left)) =>
    s.advanceApply cfg id failing scan recent (.freeing (digest :: left))
  | _ => none

/-- `Store::collect` begins; a dry run does not rotate the journal. A server's
collections wait for one another. -/
def collect (id : Nat) (options : GcOptions) (now : Nat) : Option State :=
  if cfg.serialize = true ∧ id ≠ 0 then none
  else match s.collectors id with
    | .idle =>
      some (s.setCollector id
        (.scanning ⟨options, now, [], [], [], []⟩ (if options.dryRun then .reading else .rotating)))
    | _ => none

/-- `read_dir` of a directory of `collect_paths`: each file there is in one of
the subdirectories. -/
def enter (id : Nat) (shards : List Text) : Option State :=
  match s.collectors id with
  | .scanning scan .listingBlobs =>
    if shards.Nodup ∧ ∀ digest ∈ s.store.blobs.keys, digest.take 2 ∈ shards then
      some (s.setCollector id (.scanning scan (.blobShards shards [])))
    else none
  | .scanning scan (.listing dir) =>
    if shards.Nodup ∧ ∀ path ∈ s.store.paths dir, subdirectory path ∈ shards then
      some (s.setCollector id (.scanning scan (.shards dir shards [])))
    else none
  | _ => none

def listBlobs (id : Nat) (order : List Text) : Option State :=
  match s.collectors id with
  | .scanning scan (.blobShards (shard :: left) found) =>
    if order.Perm (s.store.blobs.keys.filter (·.take 2 == shard)) then
      some (s.setCollector id (.scanning scan (.blobShards left (found ++ order))))
    else none
  | _ => none

def listRecords (id : Nat) (order : List RecordPath) : Option State :=
  match s.collectors id with
  | .scanning scan (.shards dir (shard :: left) found) =>
    if order.Perm ((s.store.paths dir).filter (subdirectory · == shard)) then
      some (s.setCollector id (.scanning scan (.shards dir left (found ++ order))))
    else none
  | _ => none

/-- `exists()`, of `rotate_journal`, `read_journal` and `collect_paths`, is
false also where looking fails. -/
def overlook (id : Nat) : Option State :=
  match s.collectors id with
  | .scanning scan phase => phase.missed.map fun next => s.setCollector id (.scanning scan next)
  | _ => none

def readRecord (id : Nat) (path : RecordPath) (modifiedMs : Nat) : Option State :=
  match s.collectors id with
  | .scanning scan (.records dir left) =>
    if path ∈ left then
      let found := (s.store.recordsAt path).map fun record => Scanned.mk path record modifiedMs
      some (s.setCollector id
        (.scanning { scan with scanned := scan.scanned ++ found } (.records dir (left.erase path))))
    else none
  | _ => none

def abandon (id : Nat) : Option State :=
  match s.collectors id with
  | .idle => none
  | _ => some ((s.release (.collector id)).setCollector id .idle)

/-! ### Steps -/

def step : Event → Option State
  | .start id request => s.start cfg id request
  | .proceed id now => s.proceed cfg id now
  | .giveUp id => s.giveUp id
  | .cutShort id told => s.cutShort id told
  | .misread id => s.misread id
  | .collect id options now => s.collect cfg id options now
  | .enter id shards => s.enter id shards
  | .listBlobs id order => s.listBlobs id order
  | .listRecords id order => s.listRecords id order
  | .overlook id => s.overlook id
  | .readRecord id path modifiedMs => s.readRecord id path modifiedMs
  | .advance id => s.advance cfg id
  | .passOver id failing => s.passOver cfg id failing
  | .abandon id => s.abandon id

/-- The system's steps, as a relation. -/
def Step (s : State) (event : Event) (t : State) : Prop := s.step cfg event = some t

end State

end Bellows.Collect
