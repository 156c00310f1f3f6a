/-
The session relay (`relay.rs`): any number of requests and of background
uploads and publications, a step at a time, in any order.

A step is what a handler or a task does between two points where another may
run, or between two accesses to what they share; the section of `put_blob`
under the lock on the blobs is one step, and so is its task's start, as
nothing is awaited between. An upload ends as the server and the network will
have it, so its outcome is part of the event, as is what a body's spooling
gives. The limit on concurrent uploads only delays them, and a handler's
future may go away with its client wherever it waits.

The byte and file counts are integers, so that one that underflows is
negative. The statistics, the spool's files and the bodies are left out, and
requests stand here as they are once authorized.
-/
import Mathlib.Algebra.BigOperators.Group.List.Basic
import Bellows.Core.Manifest
import Bellows.Lib.Assoc
import Bellows.Lib.Run
import Bellows.Relay.Order

namespace Bellows.Relay

open Bellows.Core

/-! ## Requests -/

inductive Method where
  | get
  | head
  | put
  | post
  | delete
  | other
  deriving DecidableEq, Repr

/-- `Deferred` -/
inductive Deferred where
  /-- A compiler or build-script record: after the blobs it names. -/
  | record
  /-- A best-effort use mark: no ordering. -/
  | use
  /-- A single-flight lease release: after the records published under it. -/
  | release
  deriving DecidableEq, Repr

inductive Route where
  | headBlob (digest : Text)
  | putBlob (digest : Text)
  | defer (kind : Deferred)
  /-- Reads and lease requests, passed straight through. -/
  | forward
  /-- Every other change: archives, declared records, remote execution, collection. -/
  | change
  deriving DecidableEq, Repr

/-- The `match` of `handle`, on the segments of the path. -/
def route (method : Method) : List String → Route
  | ["v1", "blobs", digest] =>
    if method = .head then .headBlob digest.toList
    else if method = .put then .putBlob digest.toList
    else rest
  | ["v1", "actions", _, _] => if method = .put then .defer .record else rest
  | ["v1", "actions", _, _, "used"] => if method = .post then .defer .use else rest
  | ["v1", "leases", _, _] => if method = .delete then .defer .release else rest
  | ["v1", "leases", _] => if method = .post then .forward else rest
  | _ => rest
where
  rest : Route := if method = .get ∨ method = .head then .forward else .change

/-! ## Blobs -/

inductive BlobState where
  | pending
  | done
  | failed
  deriving DecidableEq, Repr

inductive PutAnswer where
  | created
  | noContent
  /-- `BAD_REQUEST`: "invalid blob digest" -/
  | invalidDigest
  /-- `BAD_REQUEST`: "blob digest mismatch" -/
  | mismatch
  /-- `INTERNAL_SERVER_ERROR`: "relay spool" -/
  | spoolFailed
  deriving DecidableEq, Repr

/-- Where a `put_blob` is. -/
inductive PutPhase where
  | arrived
  /-- About to load the count of spooled bytes. -/
  | loading
  /-- That was at the limit; about to load the count of files. -/
  | full
  | spooling
  /-- Its file has the digest and this length; about to take the lock. -/
  | spooled (length : Nat)
  | answered (answer : PutAnswer)
  /-- Its client went away. -/
  | dropped
  deriving DecidableEq, Repr

structure Put where
  digest : Text
  phase : PutPhase
  deriving DecidableEq, Repr

/-- Where an upload's task is. -/
inductive UploadPhase where
  | uploading
  /-- Its outcome is recorded; about to subtract its bytes. -/
  | recorded
  /-- About to subtract its file. -/
  | bytesFreed
  /-- About to finish its number. -/
  | fileFreed
  | finished
  deriving DecidableEq, Repr

structure Upload where
  digest : Text
  length : Nat
  sequence : Nat
  phase : UploadPhase
  deriving DecidableEq, Repr

/-! ## Records, releases and other changes -/

/-- What the relay had accepted when a request arrived: the digests whose PUT
or HEAD it had answered with success, how many uploads it had begun, and the
records it had taken on, by their place in `deferred`. -/
structure Before where
  blobs : List Text
  uploads : Nat
  records : List Nat
  deriving DecidableEq, Repr

/-- Where a deferred request is. -/
inductive DeferPhase where
  | reading
  | waiting (blobHorizon recordHorizon : Nat)
  /-- It has been sent `attempts` times without reaching the server. -/
  | retrying (attempts : Nat)
  /-- The last attempt has ended; about to finish a record's number. -/
  | sent
  | finished
  /-- Its body could not be read, or its client went away meanwhile. -/
  | refused
  deriving DecidableEq, Repr

structure Deferral where
  kind : Deferred
  before : Before
  /-- A record's number, once it is taken on. -/
  sequence : Option Nat
  phase : DeferPhase
  deriving DecidableEq, Repr

/-- Another change: it waits for the blobs before its horizon. -/
structure Change where
  before : Before
  horizon : Nat
  sent : Bool
  deriving DecidableEq, Repr

/-! ## The system -/

structure State where
  blobs : Assoc Text BlobState
  spooled : Int
  spoolFiles : Int
  blobOrder : Order
  recordOrder : Order
  puts : List Put
  /-- Every upload begun. -/
  uploads : List Upload
  deferred : List Deferral
  changes : List Change
  /-- The digests whose PUT or HEAD was answered with success. -/
  answered : List Text
  /-- The records taken on, by their place in `deferred`. -/
  records : List Nat
  /-- The numbers that uploads have finished, once for each time. -/
  finished : List Nat

inductive PutEvent where
  | check
  | loadBytes
  | loadFiles
  /-- What was spooled: its digest and length; `none` for an error. -/
  | spool (result : Option (Text × Nat))
  /-- The section under the lock, and the start of the upload. -/
  | accept
  | drop
  deriving DecidableEq, Repr

inductive UploadEvent where
  /-- `true`: uploaded, or already on the server. -/
  | record (done : Bool)
  | freeBytes
  | freeFile
  | finish
  deriving DecidableEq, Repr

inductive DeferEvent where
  /-- Whether the body could be read. -/
  | body (ok : Bool)
  /-- An attempt; whether it failed to connect. -/
  | send (unreachable : Bool)
  | finish
  deriving DecidableEq, Repr

inductive Event where
  | request (method : Method) (segments : List String)
  | put (i : Nat) (event : PutEvent)
  | upload (i : Nat) (event : UploadEvent)
  | defer (i : Nat) (event : DeferEvent)
  | sendChange (i : Nat)
  deriving DecidableEq, Repr

namespace State

def init : State where
  blobs := ∅
  spooled := 0
  spoolFiles := 0
  blobOrder := .new
  recordOrder := .new
  puts := []
  uploads := []
  deferred := []
  changes := []
  answered := []
  records := []
  finished := []

variable (s : State)

/-- `Some(BlobState::Pending | BlobState::Done)` -/
def accepted (digest : Text) : Bool :=
  s.blobs.lookup digest = some .pending || s.blobs.lookup digest = some .done

def before : Before := ⟨s.answered, s.uploads.length, s.records⟩

/-- `handle`, up to the first point where it waits. -/
def request : Route → State
  | .headBlob digest => if s.accepted digest then { s with answered := digest :: s.answered } else s
  | .putBlob digest => { s with puts := s.puts ++ [⟨digest, .arrived⟩] }
  | .defer kind => { s with deferred := s.deferred ++ [⟨kind, s.before, none, .reading⟩] }
  | .forward => s
  | .change => { s with changes := s.changes ++ [⟨s.before, s.blobOrder.horizon, false⟩] }

def setPut (i : Nat) (p : Put) (phase : PutPhase) : State := { s with puts := s.puts.set i { p with phase } }

/-- A `put_blob` answered with success. -/
def answerPut (i : Nat) (p : Put) (answer : PutAnswer) : State :=
  { s.setPut i p (.answered answer) with answered := p.digest :: s.answered }

/-- The section of `put_blob` under the lock. -/
def accept (i : Nat) (p : Put) (length : Nat) : State :=
  if s.accepted p.digest then s.answerPut i p .noContent
  else { s.answerPut i p .created with
    blobs := s.blobs.insert p.digest .pending
    spooled := s.spooled + length
    spoolFiles := s.spoolFiles + 1
    blobOrder := s.blobOrder.begin.2
    uploads := s.uploads ++ [⟨p.digest, length, s.blobOrder.begin.1, .uploading⟩] }

/-- `put_blob` -/
def putStep (spoolLimit : Nat) (i : Nat) (p : Put) : PutEvent → Option State
  | .check =>
    if p.phase = .arrived then some <|
      if !validContentKey p.digest then s.setPut i p (.answered .invalidDigest)
      else if s.accepted p.digest then s.answerPut i p .noContent
      else s.setPut i p .loading
    else none
  | .loadBytes =>
    if p.phase = .loading then some (s.setPut i p (if spoolLimit ≤ s.spooled then .full else .spooling))
    else none
  | .loadFiles =>
    if p.phase = .full then some (s.setPut i p (if 0 < s.spoolFiles then .loading else .spooling))
    else none
  | .spool result =>
    if p.phase = .spooling then some <| s.setPut i p <|
      match result with
      | none => .answered .spoolFailed
      | some (actual, length) => if actual = p.digest then .spooled length else .answered .mismatch
    else none
  | .accept =>
    match p.phase with
    | .spooled length => some (s.accept i p length)
    | _ => none
  | .drop =>
    match p.phase with
    | .answered _ | .dropped => none
    | _ => some (s.setPut i p .dropped)

def setUpload (i : Nat) (u : Upload) (phase : UploadPhase) : State :=
  { s with uploads := s.uploads.set i { u with phase } }

/-- The task that `put_blob` spawns. -/
def uploadStep (i : Nat) (u : Upload) : UploadEvent → Option State
  | .record done =>
    if u.phase = .uploading then some { s.setUpload i u .recorded with
      blobs := s.blobs.insert u.digest (if done then .done else .failed) }
    else none
  | .freeBytes =>
    if u.phase = .recorded then some { s.setUpload i u .bytesFreed with spooled := s.spooled - u.length }
    else none
  | .freeFile =>
    if u.phase = .bytesFreed then some { s.setUpload i u .fileFreed with spoolFiles := s.spoolFiles - 1 }
    else none
  | .finish =>
    if u.phase = .fileFreed then some { s.setUpload i u .finished with
      blobOrder := s.blobOrder.finish u.sequence
      finished := u.sequence :: s.finished }
    else none

def setDeferral (i : Nat) (d : Deferral) (phase : DeferPhase) : State :=
  { s with deferred := s.deferred.set i { d with phase } }

/-- The horizons of `defer`, and a record's number. -/
def takeOn (i : Nat) (d : Deferral) : State :=
  let phase := .waiting s.blobOrder.horizon s.recordOrder.horizon
  if d.kind = .record then { s with
    recordOrder := s.recordOrder.begin.2
    records := i :: s.records
    deferred := s.deferred.set i { d with phase, sequence := some s.recordOrder.begin.1 } }
  else s.setDeferral i d phase

/-- Whether a deferred request's waits are over. -/
def mayBeSent (d : Deferral) : Bool :=
  match d.phase with
  | .waiting blobHorizon recordHorizon =>
    match d.kind with
    | .record => s.blobOrder.passed blobHorizon
    | .use => true
    | .release => s.blobOrder.passed blobHorizon && s.recordOrder.passed recordHorizon
  | .retrying _ => true
  | _ => false

/-- How often the request was sent before. -/
def attempts : DeferPhase → Nat
  | .retrying attempts => attempts
  | _ => 0

/-- `defer` -/
def deferStep (i : Nat) (d : Deferral) : DeferEvent → Option State
  | .body ok =>
    if d.phase = .reading then some (if ok then s.takeOn i d else s.setDeferral i d .refused) else none
  | .send unreachable =>
    if s.mayBeSent d then some <| s.setDeferral i d <|
      if unreachable ∧ attempts d.phase + 1 < 3 then .retrying (attempts d.phase + 1) else .sent
    else none
  | .finish =>
    if d.phase = .sent then
      let s' := s.setDeferral i d .finished
      some (match d.sequence with
        | some sequence => { s' with recordOrder := s.recordOrder.finish sequence }
        | none => s')
    else none

def step (spoolLimit : Nat) : Event → Option State
  | .request method segments => some (s.request (route method segments))
  | .put i event => do
    let p ← s.puts[i]?
    s.putStep spoolLimit i p event
  | .upload i event => do
    let u ← s.uploads[i]?
    s.uploadStep i u event
  | .defer i event => do
    let d ← s.deferred[i]?
    s.deferStep i d event
  | .sendChange i => do
    let c ← s.changes[i]?
    if c.sent = false ∧ s.blobOrder.passed c.horizon then
      some { s with changes := s.changes.set i { c with sent := true } }
    else none

end State

end Bellows.Relay
