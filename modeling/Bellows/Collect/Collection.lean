/-
A collection of a store that nothing else touches: its report, and what
applying its plan does, batch by batch.

The directories list their files in the order of the store's maps, the same
order each time. The report has neither the breakdown nor the duration.
-/
import Bellows.Collect.System
import Bellows.Lib.Batches

namespace Bellows.Collect

open Bellows.Core Batches

/-! ## The snapshot -/

namespace Scan

/-- What the read-only pass finds when nothing changes under it. -/
def ofStore (s : Store) (options : GcOptions) (startedMs : Nat) : Scan where
  options := options
  startedMs := startedMs
  uses := s.journal.uses
  blobs := s.blobs.entries.map fun file => ⟨file.1, file.2.bytes, file.2.modifiedMs⟩
  listing := s.paths .actions ++ s.paths .declared ++ s.paths .archives
  scanned := (s.paths .actions ++ s.paths .declared ++ s.paths .archives).flatMap fun path =>
    (s.recordsAt path).map fun record => ⟨path, record, s.modifiedMs path⟩

end Scan

/-! ## The report -/

structure GcReport where
  bytesBefore : Nat
  bytesAfter : Nat
  /-- Records evicted; planned, in a dry run. -/
  recordsEvicted : Nat
  blobsEvicted : Nat
  dryRun : Bool
  maxBytes : Nat
  minProtocol : Option Nat
  maxExecutableBytes : Option Nat
  /-- Before collection. -/
  records : Nat
  candidates : Nat
  blobs : Nat
  /-- Bytes freed by evicting records. -/
  evictedBytes : Nat
  unreferencedBlobs : Nat
  unreferencedBytes : Nat
  /-- Unreferenced blobs kept because their record may still be uploading. -/
  protectedBlobs : Nat
  /-- Planned deletions skipped because the blobs were reused. -/
  skippedBlobs : Nat
  journalEntries : Nat
  oldestKeptMs : Option Nat
  newestEvictedMs : Option Nat
  deriving DecidableEq, Repr

/-- A sum of `u64`s in a release build. -/
def wrappingSum (l : List Nat) : Nat := l.sum % 2 ^ 64

section Report

variable (plan : Plan) (s : Snapshot) (options : GcOptions)

/-- The units that are evicted, or those that are not. -/
def unitsWhere (evicted : Bool) : List GcUnit :=
  (s.units.zipIdx.filter fun entry => plan.evicted entry.2 == evicted).map (·.1)

/-- `Plan::report`, but for the breakdown and the duration. -/
def planReport : GcReport where
  bytesBefore := s.totalBytes
  bytesAfter := plan.bytesAfter
  recordsEvicted := ((List.range s.units.length).filter plan.evicted).length
  blobsEvicted := plan.freed.length + plan.unreferenced.length
  dryRun := options.dryRun
  maxBytes := options.maxBytes
  minProtocol := options.minProtocol
  maxExecutableBytes := options.maxExecutableBytes
  records := s.units.length
  candidates := (s.units.filter (·.candidate.isSome)).length
  blobs := s.blobs.length
  evictedBytes := wrappingSum (plan.freed.map fun freed => s.bytesOf freed.1)
  unreferencedBlobs := plan.unreferenced.length
  unreferencedBytes := wrappingSum (plan.unreferenced.map s.bytesOf)
  protectedBlobs := plan.protectedUnreferenced
  skippedBlobs := 0
  journalEntries := s.journalEntries
  oldestKeptMs := ((unitsWhere plan s false).map (·.lastUsedMs)).min?
  newestEvictedMs := ((unitsWhere plan s true).map (·.lastUsedMs)).max?

end Report

def Scan.report (scan : Scan) : GcReport := planReport scan.plan scan.snapshot scan.options

/-! ## Applying the plan -/

def hasFile (s : Store) : RecordPath → Bool
  | .action key => (s.actions.lookup key).isSome
  | .declared key => (s.declared.lookup key).isSome
  | .archive name => (s.archives.lookup name).isSome

/-- What `evict_from` returns: how many records it removes. -/
def evictedFrom (s : Store) (uses : List (Text × Text)) (path : RecordPath) (units : List GcUnit) : Nat :=
  if units.all (·.candidate.isNone) then (if hasFile s path then 1 else 0)
  else match path with
    | .action key =>
      match s.actions.lookup key with
      | none => 0
      | some index => index.length - (index.filter fun c => !units.any (Store.evicts uses c)).length
    | _ => 0

/-- How far `Plan::apply` is. -/
structure Applied where
  store : Store
  recent : Recent
  recordsEvicted : Nat
  deleted : Nat
  skipped : Nat

namespace Applied

def start (s : Store) : Applied := ⟨s, .empty, 0, 0, 0⟩

/-- `recent.refresh`, before a batch. -/
def refresh (v : Validators) (a : Applied) : Applied :=
  { a with recent := (a.recent.refresh v [] a.store).1, store := (a.recent.refresh v [] a.store).2 }

/-- One record file of a batch. -/
def evict (a : Applied) (file : RecordPath × List GcUnit) : Option Applied :=
  some { a with
    store := a.store.evictFrom a.recent.uses file.1 file.2
    recordsEvicted := a.recordsEvicted + evictedFrom a.store a.recent.uses file.1 file.2 }

/-- One blob of a batch; a name that is no digest has no `blob_path`. -/
def delete (scan : Scan) (a : Applied) (digest : Text) : Option Applied :=
  if validContentKey digest then
    match a.store.blobs.lookup digest with
    | none => some a
    | some blob =>
      if State.spared scan a.recent digest blob then some { a with skipped := a.skipped + 1 }
      else some { a with store := a.store.removeBlob digest, deleted := a.deleted + 1 }
  else none

end Applied

/-- `Plan::apply` -/
def applyPlan (v : Validators) (scan : Scan) (s : Store) : Option Applied :=
  (runBatches (Applied.refresh v) Applied.evict BATCH scan.evictions (.start s)).bind
    (runBatches (Applied.refresh v) (Applied.delete scan) BATCH scan.selected)

/-- `directory_bytes` of the blobs. -/
def directoryBytes (s : Store) : Nat := (s.blobs.entries.map (·.2.bytes)).foldl saturatingAdd 0

/-- `Store::collect`, for a server or not: nothing waits for the locks. -/
def collect (v : Validators) (s : Store) (options : GcOptions) (startedMs : Nat) : Option (GcReport × Store) :=
  if options.dryRun then some ((Scan.ofStore s options startedMs).report, s)
  else
    let rotated := { s with journal := s.journal.rotate }
    let scan := Scan.ofStore rotated options startedMs
    (applyPlan v scan rotated).map fun a =>
      let store := { a.store with journal := a.store.journal.compact scan.surviving }
      ({ scan.report with
        bytesAfter := directoryBytes store
        recordsEvicted := a.recordsEvicted
        blobsEvicted := a.deleted
        skippedBlobs := a.skipped }, store)

end Bellows.Collect
