/-
The access journal in use: `record_use` calls of any number of processes
beside one collection after another (`rotate_journal`, `read_journal`,
`compact_journal`).

A handle names the file it opened, whatever becomes of the file's name. A
writer may stop anywhere, also in the middle of its line. The indexes a
snapshot reads change as they will, and so does what its plan evicts; a
collection may stop anywhere, and one with `dryRun` only reads. Nothing but a
collection makes or removes a file other than `journal.log`, so listing the
files to remove and writing the compacted one is one step.
-/
import Mathlib.Logic.Function.Basic
import Bellows.Access.Lines
import Bellows.Lib.Run

namespace Bellows.Access

open Bellows.Core

/-! ## Files -/

/-- A name ending in `.log` in the journal's directory. -/
inductive FileName where
  /-- `journal.log` -/
  | log
  /-- `journal-{ms}-{pid}.log` -/
  | rotated (ms pid : Nat)
  /-- `compact-{started_ms}.log` -/
  | compact (startedMs : Nat)
  deriving DecidableEq, Repr

structure Files where
  /-- The file that each name stands for. -/
  names : Assoc FileName Nat
  contents : Nat → Text
  /-- The file created next. -/
  next : Nat

namespace Files

def empty : Files := ⟨∅, fun _ => [], 0⟩

/-- A new file under `name`, in the place of what it stood for. -/
def create (f : Files) (name : FileName) (text : Text) : Files where
  names := f.names.insert name f.next
  contents := Function.update f.contents f.next text
  next := f.next + 1

/-- `OpenOptions::create(true).append(true)` on `journal.log`. -/
def open' (f : Files) : Nat × Files :=
  match f.names.lookup .log with
  | some file => (file, f)
  | none => (f.next, f.create .log [])

def append (f : Files) (file : Nat) (text : Text) : Files :=
  { f with contents := Function.update f.contents file (f.contents file ++ text) }

/-- `rotate_journal` -/
def rotate (f : Files) (now pid : Nat) : Files :=
  match f.names.lookup .log with
  | none => f
  | some file => { f with names := (f.names.erase .log).insert (.rotated now pid) file }

def remove (f : Files) (name : FileName) : Files := { f with names := f.names.erase name }

/-- The text under a name. -/
def text (f : Files) (name : FileName) : Text := ((f.names.lookup name).map f.contents).getD []

end Files

/-! ## Units -/

/-- What identifies a candidate: its keys, and its creation time. -/
structure UnitId where
  staticKey : Text
  actionKey : Text
  createdMs : Nat
  deriving DecidableEq, Repr

def idOf (c : ActionCandidate) : UnitId := ⟨c.staticKey, c.actionKey, c.createdMs⟩

/-- A use that was recorded for a unit. -/
structure Mark where
  unit : UnitId
  ms : Nat
  deriving DecidableEq, Repr

/-- As late a use of the unit's keys is among the uses. -/
def Mark.ToldBy (mark : Mark) (uses : List Use) : Prop :=
  ∃ use ∈ uses, use.staticKey = mark.unit.staticKey ∧ use.actionKey = mark.unit.actionKey ∧ mark.ms ≤ use.ms

instance (mark : Mark) (uses : List Use) : Decidable (mark.ToldBy uses) := by
  unfold Mark.ToldBy
  infer_instance

/-- What the uses of the journal make of a candidate. -/
def unitFrom (uses : List Use) (c : ActionCandidate) : GcUnit :=
  unitOf (uses.map fun use => ((use.staticKey, use.actionKey), use.ms)) ⟨.action c.staticKey, .candidate c, 0⟩

/-- The unit of that identity. -/
def IsUnit (unit : GcUnit) (id : UnitId) : Prop :=
  unit.staticKey = some id.staticKey ∧ unit.candidate = some (id.actionKey, id.createdMs)

instance (unit : GcUnit) (id : UnitId) : Decidable (IsUnit unit id) := inferInstanceAs (Decidable (_ ∧ _))

/-- The uses of the entries that `compact_journal` writes. -/
def surviving (units : List GcUnit) (evicted : List Nat) : List Use :=
  (units.zipIdx.filter fun entry => !(entry.2 ∈ evicted)).filterMap fun entry =>
    match entry.1.staticKey, entry.1.candidate with
    | some key, some (action, created) =>
      if created < entry.1.lastUsedMs then some ⟨key, action, entry.1.lastUsedMs⟩ else none
    | _, _ => none

/-! ## The system -/

inductive WriterPhase where
  /-- Its line is formatted, with the time in it. -/
  | formatted
  | opened (file : Nat)
  | done
  deriving DecidableEq, Repr

/-- A call of `record_use`. -/
structure Writer where
  use : Use
  phase : WriterPhase
  deriving DecidableEq, Repr

/-- Where the collection is. `before`: the marks made before it read. -/
inductive Collection where
  | idle
  /-- Files still to read, and the uses read so far. -/
  | reading (startedMs : Nat) (dryRun : Bool) (before : List Mark) (left : List FileName) (uses : List Use)
  /-- The units read so far. -/
  | scanning (startedMs : Nat) (dryRun : Bool) (before : List Mark) (uses : List Use) (units : List GcUnit)
  /-- The files still to remove. -/
  | removing (left : List FileName)
  deriving DecidableEq, Repr

structure State where
  files : Files
  /-- The candidates in the store's indexes. -/
  candidates : List ActionCandidate
  writers : List Writer
  collection : Collection
  /-- The uses completed for units that are still there since. -/
  marks : List Mark

inductive Event where
  | recordUse (staticKey actionKey : Text) (now : Nat)
  | openJournal (writer : Nat)
  | append (writer : Nat)
  /-- The writer is interrupted after `n` characters. -/
  | tear (writer n : Nat)
  /-- A publication, an eviction, any change of the indexes. -/
  | setIndexes (candidates : List ActionCandidate)
  | collect (dryRun : Bool) (now pid : Nat)
  | readFile (name : FileName)
  | journalRead
  /-- An index read by the snapshot. -/
  | readIndex (staticKey : Text)
  /-- The plan evicts these units; the journals are compacted. -/
  | compact (evicted : List Nat)
  | removeFile (name : FileName)
  /-- The collection ends, or stops where it is. -/
  | stop
  deriving DecidableEq, Repr

namespace State

def init (candidates : List ActionCandidate) : State := ⟨.empty, candidates, [], .idle, []⟩

variable (s : State)

def setWriter (i : Nat) (w : Writer) (phase : WriterPhase) : State :=
  { s with writers := s.writers.set i { w with phase } }

/-- The marks that a completed use leaves. -/
def marksOf (use : Use) : List Mark :=
  (s.candidates.filter fun c => c.staticKey = use.staticKey ∧ c.actionKey = use.actionKey).map fun c => ⟨idOf c, use.ms⟩

/-- `compact_journal` -/
def compact (startedMs : Nat) (units : List GcUnit) (evicted : List Nat) : State :=
  let read := s.files.names.keys.filter (· ≠ .log)
  let lines := (surviving units evicted).flatMap useLine
  { s with
    files := if lines = [] then s.files else s.files.create (.compact startedMs) lines
    collection := .removing (read.filter (· ≠ .compact startedMs)) }

def step : Event → Option State
  | .recordUse staticKey actionKey now =>
    if Valid ⟨staticKey, actionKey, now⟩ then
      some { s with writers := s.writers ++ [⟨⟨staticKey, actionKey, now⟩, .formatted⟩] }
    else none
  | .openJournal i => do
    let w ← s.writers[i]?
    if w.phase = .formatted then
      some { s.setWriter i w (.opened s.files.open'.1) with files := s.files.open'.2 }
    else none
  | .append i => do
    let w ← s.writers[i]?
    match w.phase with
    | .opened file => some { s.setWriter i w .done with
        files := s.files.append file (useLine w.use)
        marks := s.marksOf w.use ++ s.marks }
    | _ => none
  | .tear i n => do
    let w ← s.writers[i]?
    match w.phase with
    | .opened file =>
      if n < (useLine w.use).length then
        some { s.setWriter i w .done with files := s.files.append file ((useLine w.use).take n) }
      else none
    | _ => none
  | .setIndexes candidates =>
    some { s with candidates, marks := s.marks.filter fun mark => mark.unit ∈ candidates.map idOf }
  | .collect dryRun now pid =>
    if s.collection = .idle then
      let files := if dryRun then s.files else s.files.rotate now pid
      some { s with files, collection := .reading now dryRun s.marks files.names.keys [] }
    else none
  | .readFile name =>
    match s.collection with
    | .reading startedMs dryRun before left uses =>
      -- the listing may show a `journal.log` made since
      if name ∈ left ∨ name = .log then
        some { s with
          collection := .reading startedMs dryRun before (left.filter (· ≠ name)) (uses ++ parseLines (s.files.text name)) }
      else none
    | _ => none
  | .journalRead =>
    match s.collection with
    | .reading startedMs dryRun before [] uses => some { s with collection := .scanning startedMs dryRun before uses [] }
    | _ => none
  | .readIndex staticKey =>
    match s.collection with
    | .scanning startedMs dryRun before uses units =>
      let found := (s.candidates.filter (·.staticKey = staticKey)).map (unitFrom uses)
      some { s with collection := .scanning startedMs dryRun before uses (units ++ found) }
    | _ => none
  | .compact evicted =>
    match s.collection with
    | .scanning startedMs false _ _ units => some (s.compact startedMs units evicted)
    | _ => none
  | .removeFile name =>
    match s.collection with
    | .removing left =>
      if name ∈ left then
        some { s with files := s.files.remove name, collection := .removing (left.filter (· ≠ name)) }
      else none
    | _ => none
  | .stop => some { s with collection := .idle }

/-! ## What is asked of a collection -/

/-- No unit that the snapshot reads is given an earlier last use than one
recorded for it before the journal was read. -/
def Remembered : Prop :=
  match s.collection with
  | .scanning _ _ before _ units =>
    ∀ unit ∈ units, ∀ mark ∈ before, IsUnit unit mark.unit → mark.ms ≤ unit.lastUsedMs
  | _ => True

instance : Decidable s.Remembered := by
  unfold Remembered
  cases s.collection <;> infer_instance

/-- The running collection removes no file under this name without reading
it from now on. -/
def Open (name : FileName) : Prop :=
  match s.collection with
  | .idle => True
  | .reading _ dryRun _ left _ => dryRun = true ∨ name = .log ∨ name ∈ left
  | .scanning _ dryRun _ _ _ => dryRun = true ∨ name = .log
  | .removing left => name ∉ left

instance (name : FileName) : Decidable (s.Open name) := by
  unfold Open
  cases s.collection <;> infer_instance

/-- A plan leaves out no unit that is still there and was used: it was read,
and is not to be evicted, or the new `journal.log` has as late a use. -/
def KeepsMarks (units : List GcUnit) (evicted : List Nat) : Prop :=
  ∀ mark ∈ s.marks, mark.ms ≤ mark.unit.createdMs ∨
    (∃ entry ∈ units.zipIdx, entry.2 ∉ evicted ∧ IsUnit entry.1 mark.unit) ∨
    mark.ToldBy (wholeUses (s.files.text .log))

/-- The condition on a step under which uses are kept: a line is appended to a
file that still has a name, open to the running collection, and starts a line
there; a rotated journal takes nobody's name; a compaction leaves out no used
unit. -/
def Safe : Event → Prop
  | .append i => ∀ w ∈ s.writers[i]?, ∃ name ∈ s.files.names.keys,
      (s.files.names.lookup name).map WriterPhase.opened = some w.phase ∧ s.Open name ∧
        AtLineStart (s.files.text name)
  | .collect dryRun now pid =>
    dryRun = true ∨ s.files.names.lookup .log = none ∨ s.files.names.lookup (.rotated now pid) = none
  | .compact evicted =>
    match s.collection with
    | .scanning _ _ _ _ units => s.KeepsMarks units evicted
    | _ => True
  | _ => True

instance (units : List GcUnit) (evicted : List Nat) : Decidable (s.KeepsMarks units evicted) := by
  unfold KeepsMarks
  infer_instance

instance (event : Event) : Decidable (s.Safe event) := by
  cases event <;> unfold Safe
  case compact => cases s.collection <;> infer_instance
  all_goals infer_instance

end State

end Bellows.Access
