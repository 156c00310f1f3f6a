/-
Planning a collection: the snapshot of a store's records and blobs, and which
of them to delete.

Arrays indexed by unit or blob are functions of the index. A counter that
saturates at zero is a `Nat`; bytes saturate at `u64::MAX` where the source's
addition does.
-/
import Mathlib.Algebra.GroupWithZero.Nat
import Mathlib.Data.List.Sort
import Mathlib.Logic.Function.Basic
import Bellows.Core.Manifest

namespace Bellows.Core

open Text

def BATCH : Nat := 256

def COARSE_CLOCK_SLACK_MS : Nat := 50

/-- `UNPUBLISHED_BLOB_GRACE`, in milliseconds. -/
def UNPUBLISHED_BLOB_GRACE : Nat := 60 * 60 * 1000

def U64_MAX : Nat := 2 ^ 64 - 1

def saturatingAdd (a b : Nat) : Nat := min (a + b) U64_MAX

structure GcOptions where
  /-- Keep the blob directory at or below this many bytes. -/
  maxBytes : Nat
  dryRun : Bool
  /-- Evict every candidate older than this protocol, whatever the budget. -/
  minProtocol : Option Nat
  /-- A separate budget for final executables. -/
  maxExecutableBytes : Option Nat
  deriving DecidableEq, Repr

inductive Kind where
  | library
  | executable
  | linked
  | buildScript
  | declared
  | archive
  deriving DecidableEq, Repr

/-! ## Units -/

def hasSuffix (name suffix : Text) : Bool := suffix.isSuffixOf name

def hasPrefix (name pre : Text) : Bool := pre.isPrefixOf name

/-- `candidate_kind` -/
def candidateKind (crateName : Text) (artifacts : List Artifact) : Kind :=
  if hasPrefix crateName "build-script:".toList || artifacts.any (·.fileName == "out-dir.tree".toList) then
    .buildScript
  else if artifacts.any fun artifact => !(hasSuffix artifact.fileName ".rlib".toList ||
      hasSuffix artifact.fileName ".rmeta".toList || hasSuffix artifact.fileName ".d".toList) then
    if artifacts.any (fun artifact => hasSuffix artifact.fileName ".so".toList ||
        hasSuffix artifact.fileName ".dylib".toList || hasSuffix artifact.fileName ".dll".toList) ||
        hasPrefix crateName "build_script_".toList then .linked
    else .executable
  else .library

/-- `Unit`: what a collection knows of one record. -/
structure GcUnit where
  path : RecordPath
  /-- For candidates: (action key, creation time) identifies it in its index. -/
  candidate : Option (Text × Nat)
  staticKey : Option Text
  protocol : Option Nat
  crateName : Text
  kind : Kind
  pinned : Bool
  lastUsedMs : Nat
  /-- Indexes of the blobs it references, each once. -/
  blobs : List Nat
  deriving DecidableEq, Repr

structure GcBlob where
  digest : Text
  bytes : Nat
  modifiedMs : Nat
  deriving DecidableEq, Repr

/-- A record as the snapshot's pass found it, with the modification time of
its file. -/
structure Scanned where
  path : RecordPath
  record : Record
  modifiedMs : Nat
  deriving DecidableEq, Repr

/-- The newest use of each candidate the journals tell of. -/
abbrev Uses := List ((Text × Text) × Nat)

/-- `journal.get(..).copied().unwrap_or(0)`: the newest of the entries. -/
def lastUse (uses : Uses) (staticKey actionKey : Text) : Nat :=
  (uses.filterMap fun use => if use.1 = (staticKey, actionKey) then some use.2 else none).foldl max 0

/-- The unit of a record, but for its blobs. -/
def unitOf (uses : Uses) (s : Scanned) : GcUnit :=
  match s.record with
  | .candidate c =>
    { path := s.path, candidate := some (c.actionKey, c.createdMs), staticKey := some c.staticKey,
      protocol := some c.protocol, crateName := c.crateName, kind := candidateKind c.crateName c.artifacts,
      pinned := c.env.any fun input => hasPrefix input.name PIN_PREFIX,
      lastUsedMs := max (lastUse uses c.staticKey c.actionKey) c.createdMs, blobs := [] }
  | .declared r =>
    { path := s.path, candidate := none, staticKey := none, protocol := none, crateName := r.name,
      kind := .declared, pinned := false, lastUsedMs := s.modifiedMs, blobs := [] }
  | .archive m =>
    { path := s.path, candidate := none, staticKey := none, protocol := some m.protocol, crateName := m.name,
      kind := .archive, pinned := false, lastUsedMs := max s.modifiedMs m.createdMs, blobs := [] }

/-! ## The snapshot -/

structure Snapshot where
  units : List GcUnit
  blobs : List GcBlob
  /-- Blob index to the units referencing it. -/
  referrers : Nat → List Nat
  journalEntries : Nat
  totalBytes : Nat
  startedMs : Nat

namespace Snapshot

/-- `by_digest`: the index of the last blob with the digest. -/
def byDigest (blobs : List GcBlob) (digest : Text) : Option Nat :=
  (blobs.zipIdx.filter fun entry => entry.1.digest == digest).getLast?.map (·.2)

/-- One round of `add`'s loop over a record's digests. -/
def addReference (blobs : List GcBlob) (seen : List Nat) (digest : Text) : List Nat :=
  match byDigest blobs digest with
  | some blob => if blob ∈ seen then seen else seen ++ [blob]
  | none => seen

/-- The listed blobs among the digests, each once. -/
def references (blobs : List GcBlob) (digests : List Text) : List Nat := digests.foldl (addReference blobs) []

/-- The closure `add` of `Snapshot::read`. -/
def add (s : Snapshot) (unit : GcUnit) (digests : List Text) : Snapshot :=
  let blobs := references s.blobs digests
  { s with
    units := s.units ++ [{ unit with blobs := blobs }]
    referrers := fun blob => if blob ∈ blobs then s.referrers blob ++ [s.units.length] else s.referrers blob }

/-- The snapshot of what the pass found. -/
def read (uses : Uses) (blobs : List GcBlob) (records : List Scanned) (startedMs : Nat) : Snapshot :=
  records.foldl (fun s record => s.add (unitOf uses record) record.record.digests) {
    units := []
    blobs := blobs
    referrers := fun _ => []
    journalEntries := (uses.map (·.1)).dedup.length
    totalBytes := (blobs.map (·.bytes)).foldl saturatingAdd 0
    startedMs := startedMs }

end Snapshot

namespace Snapshot

variable (s : Snapshot) (options : GcOptions)

def bytesOf (blob : Nat) : Nat := (s.blobs[blob]?.map (·.bytes)).getD 0

def isExecutable (index : Nat) : Bool := s.units[index]?.any (·.kind == .executable)

def lastUsed (index : Nat) : Nat := (s.units[index]?.map (·.lastUsedMs)).getD 0

/-- A candidate of an older protocol than the options keep. -/
def isObsolete (index : Nat) : Bool :=
  s.units[index]?.any fun unit => unit.candidate.isSome &&
    options.minProtocol.any fun minimum => unit.protocol.any (· < minimum)

def unreferencedBlobs : List Nat :=
  (List.range s.blobs.length).filter fun blob => (s.referrers blob).isEmpty

/-- Whether a blob that nothing references may still be waiting for its record. -/
def withinGrace (now blob : Nat) : Bool :=
  s.blobs[blob]?.any fun b => now - b.modifiedMs < UNPUBLISHED_BLOB_GRACE

/-- Unreferenced blobs past their grace. -/
def unreferenced (now : Nat) : List Nat := s.unreferencedBlobs.filter fun blob => !s.withinGrace now blob

/-- Bytes that only executables reference. `sum` does not saturate: it wraps
in a release build. -/
def executableOnlyBytes : Nat :=
  (((List.range s.blobs.length).filter fun blob =>
    !(s.referrers blob).isEmpty && (s.referrers blob).all s.isExecutable).map s.bytesOf).sum % 2 ^ 64

/-- `order.sort_by_key`: obsolete candidates first, then by last use, then by
index. -/
def precedes (a b : Nat) : Bool :=
  if s.isObsolete options a != s.isObsolete options b then s.isObsolete options a
  else if s.lastUsed a ≠ s.lastUsed b then s.lastUsed a < s.lastUsed b
  else a ≤ b

def order : List Nat := (List.range s.units.length).insertionSort fun a b => s.precedes options a b

end Snapshot

/-! ## The plan -/

structure Plan where
  evicted : Nat → Bool
  /-- Blobs to delete, each with the unit whose eviction freed it. -/
  freed : List (Nat × Nat)
  unreferenced : List Nat
  protectedUnreferenced : Nat
  bytesAfter : Nat

namespace Plan

/-- What the closure `evict` of `Plan::new` changes. -/
structure Evictions where
  evicted : Nat → Bool
  remaining : Nat → Nat
  freed : List (Nat × Nat)
  bytesAfter : Nat
  executableBytes : Nat

variable (snapshot : Snapshot) (options : GcOptions)

/-- One blob of an evicted unit. -/
def release (kind : Kind) (index : Nat) (e : Evictions) (blob : Nat) : Evictions :=
  let e := { e with remaining := Function.update e.remaining blob (e.remaining blob - 1) }
  if e.remaining blob = 0 then
    { e with
      freed := e.freed ++ [(blob, index)]
      bytesAfter := e.bytesAfter - snapshot.bytesOf blob
      executableBytes := if kind = .executable then e.executableBytes - snapshot.bytesOf blob
        else e.executableBytes }
  else e

/-- The closure `evict`. -/
def evict (e : Evictions) (index : Nat) : Evictions :=
  if e.evicted index then e
  else match snapshot.units[index]? with
    | none => e
    | some unit => unit.blobs.foldl (release snapshot unit.kind index)
        { e with evicted := Function.update e.evicted index true }

/-- The loop over executables. -/
def evictExecutables (budget : Nat) : List Nat → Evictions → Evictions
  | [], e => e
  | index :: rest, e =>
    if e.executableBytes ≤ budget then e
    else evictExecutables budget rest (if snapshot.isExecutable index then evict snapshot e index else e)

/-- The loop over all units. -/
def evictToFit : List Nat → Evictions → Evictions
  | [], e => e
  | index :: rest, e =>
    if e.bytesAfter ≤ options.maxBytes && !snapshot.isObsolete options index then e
    else evictToFit rest (evict snapshot e index)

/-- Before any eviction. -/
def start (now : Nat) : Evictions where
  evicted := fun _ => false
  remaining := fun blob => (snapshot.referrers blob).length
  freed := []
  bytesAfter := ((snapshot.unreferenced now).map snapshot.bytesOf).foldl (· - ·) snapshot.totalBytes
  executableBytes := snapshot.executableOnlyBytes

/-- After the executable budget. -/
def fitted (now : Nat) : Evictions :=
  match options.maxExecutableBytes with
  | none => start snapshot now
  | some budget => evictExecutables snapshot budget (snapshot.order options) (start snapshot now)

/-- After both loops. -/
def evictions (now : Nat) : Evictions :=
  evictToFit snapshot options (snapshot.order options) (fitted snapshot options now)

/-- `Plan::new` -/
def new (now : Nat) : Plan where
  evicted := (evictions snapshot options now).evicted
  freed := (evictions snapshot options now).freed
  unreferenced := snapshot.unreferenced now
  protectedUnreferenced := (snapshot.unreferencedBlobs.filter (snapshot.withinGrace now)).length
  bytesAfter := (evictions snapshot options now).bytesAfter

/-- The blobs to delete, in the order they are. -/
def selected (plan : Plan) : List Nat := plan.freed.map (·.1) ++ plan.unreferenced

end Plan

end Bellows.Core
