/-
The compiler wrapper (`rustc_wrapper`, `cache_or_compile`), as a program that
asks for everything that is not its own doing: the environment and the clock,
the two caches, the lease on the compile, and rustc itself. What answers may
answer anything.

How an invocation is analyzed, identified, validated, captured and restored is
modelled elsewhere; here each is one call. A use that is recorded while the
outputs are restored is recorded before. `try_candidates` never fails, and so
answers no error here.
-/
import Bellows.Lib.Dialogue
import Bellows.Access.Lines
import Bellows.Cli.Candidate
import Bellows.Cli.StaticKey
import Bellows.Service.BuildLease

namespace Bellows.Cli.Wrapper

open Text Bellows.Core Bellows.Access Bellows.Service

/-! ## What is asked -/

structure ExitStatus where
  raw : Int
  deriving DecidableEq, Repr

def ExitStatus.success (status : ExitStatus) : Bool := status.raw == 0

/-- What is recorded in the event log. -/
structure Recorded where
  kind : String
  crateName : Text
  staticKey : Option Text
  actionKey : Option Text
  detail : String
  deriving DecidableEq, Repr

/-- A digest and its bytes. -/
abbrev BlobBytes := Text × List UInt8

/-- A result that may be stored. -/
structure Stored where
  candidate : ActionCandidate
  blobs : List BlobBytes
  pinned : Bool
  deriving DecidableEq

/-- rustc as `compile_and_capture` runs it. -/
structure RustcRun where
  status : ExitStatus
  stdout : List UInt8
  stderr : List UInt8

/-- What the capture of a run is made of. -/
structure CaptureRequest where
  run : RustcRun
  linkCommand : Option Text

inductive Call where
  /-- `env::var` -/
  | var (name : String)
  | nowMs
  | pid
  /-- Sets the deadline; answered with how long it was until it is looked at. -/
  | deadline
  /-- Answered with how much longer it was until the deadline is looked at. -/
  | sleep (ms : Nat)
  /-- The sleep that is asked for in the environment. -/
  | delay (ms : Nat)
  | record (event : Recorded)
  /-- `Invocation::analyze` -/
  | analyze (raw : List OsText)
  | buildIdentity (invocation : Analysis)
  /-- `Remote::new` -/
  | connect (server : String) (token : Option String)
  /-- `local_store`, or `Store::open_for_access` -/
  | openStore (localOnly : Bool)
  | rememberIdentity
  | validate (candidate : ActionCandidate)
  /-- What `restore_with` checks before it fetches anything. -/
  | checkOutputs (candidate : ActionCandidate)
  /-- What `restore_with` does with the blobs. -/
  | install (candidate : ActionCandidate) (blobs : List (List UInt8))
  -- the local store
  | readCandidates (staticKey : Text)
  | readBlobs (digests : List Text)
  | putBlob (blob : BlobBytes)
  | putCandidate (candidate : ActionCandidate)
  | recordUse (candidate : ActionCandidate)
  -- the server
  | remoteCandidates (staticKey : Text)
  | remoteBlobs (digests : List Text)
  | remoteRecordUse (candidate : ActionCandidate)
  | acquire (staticKey : Text) (request : LeaseRequest)
  | release (staticKey token : Text)
  /-- `validate_candidate_manifest` -/
  | checkManifest (candidate : ActionCandidate)
  | remotePutBlobs (blobs : List BlobBytes)
  | remotePutCandidate (candidate : ActionCandidate)
  -- the compile
  /-- `fs::read_dir` succeeds, and there is an entry. -/
  | hasEntries (directory : Text)
  | remapPlan
  | createLinkRecord (outDir : Text)
  | rustc (args : List Text) (env : List (Text × Text))
  | readLinkRecord (path : Text)
  | capture (request : CaptureRequest)
  /-- `passthrough` -/
  | passthrough (raw : List OsText)
  -- the build-script launcher
  | isFile (path : Text)
  | removeLauncher (outDir unitFile : Text)
  | installLauncher (outDir unitFile : Text)

/-- What fails says so in the text of its error. -/
def Answer : Call → Type
  | .var _ => Option String
  | .nowMs | .pid | .deadline | .sleep _ => Nat
  | .delay _ | .record _ | .recordUse _ | .remoteRecordUse _ | .release .. | .removeLauncher .. => Unit
  | .analyze _ => Except String Analysis
  | .buildIdentity _ => Except String BuildIdentity
  | .connect .. | .openStore _ => Except String Unit
  | .rememberIdentity => Except String String
  | .validate _ | .checkManifest _ | .checkOutputs _ | .install .. => Except String Unit
  | .readCandidates _ | .remoteCandidates _ => Except String (List ActionCandidate)
  | .readBlobs _ | .remoteBlobs _ => Except String (List (List UInt8))
  | .putBlob _ | .putCandidate _ | .remotePutBlobs _ | .remotePutCandidate _ | .installLauncher .. => Except String Unit
  | .acquire .. => Except String LeaseResponse
  | .hasEntries _ | .isFile _ => Bool
  | .remapPlan => List (Text × Text)
  | .createLinkRecord _ | .readLinkRecord _ => Except String Text
  | .rustc .. => Except String RustcRun
  | .capture _ => Except CaptureError Stored
  | .passthrough _ => Except String ExitStatus

/-- A program of the wrapper. -/
abbrev Asking := Dialogue Answer

def call (c : Call) : Asking (Answer c) := .ask c

def var (name : String) : Asking (Option String) := call (.var name)
def nowMs : Asking Nat := call .nowMs
def pid : Asking Nat := call .pid
def deadline : Asking Nat := call .deadline

def sleep (ms : Nat) : Asking Nat := call (.sleep ms)
def delay (ms : Nat) : Asking Unit := call (.delay ms)
def record (event : Recorded) : Asking Unit := call (.record event)
def analyze (raw : List OsText) : Asking (Except String Analysis) := call (.analyze raw)
def buildIdentity (invocation : Analysis) : Asking (Except String BuildIdentity) := call (.buildIdentity invocation)
def connect (server : String) (token : Option String) : Asking (Except String Unit) := call (.connect server token)
def openStore (localOnly : Bool) : Asking (Except String Unit) := call (.openStore localOnly)
def rememberIdentity : Asking (Except String String) := call .rememberIdentity
def validate (candidate : ActionCandidate) : Asking (Except String Unit) := call (.validate candidate)
def checkOutputs (candidate : ActionCandidate) : Asking (Except String Unit) := call (.checkOutputs candidate)
def install (candidate : ActionCandidate) (blobs : List (List UInt8)) : Asking (Except String Unit) :=
  call (.install candidate blobs)
def readCandidates (staticKey : Text) : Asking (Except String (List ActionCandidate)) := call (.readCandidates staticKey)
def readBlobs (digests : List Text) : Asking (Except String (List (List UInt8))) := call (.readBlobs digests)
def putBlob (blob : BlobBytes) : Asking (Except String Unit) := call (.putBlob blob)
def putCandidate (candidate : ActionCandidate) : Asking (Except String Unit) := call (.putCandidate candidate)
def recordUse (candidate : ActionCandidate) : Asking Unit := call (.recordUse candidate)
def remoteCandidates (staticKey : Text) : Asking (Except String (List ActionCandidate)) :=
  call (.remoteCandidates staticKey)
def remoteBlobs (digests : List Text) : Asking (Except String (List (List UInt8))) := call (.remoteBlobs digests)
def remoteRecordUse (candidate : ActionCandidate) : Asking Unit := call (.remoteRecordUse candidate)
def acquire (staticKey : Text) (request : LeaseRequest) : Asking (Except String LeaseResponse) :=
  call (.acquire staticKey request)
def release (staticKey token : Text) : Asking Unit := call (.release staticKey token)
def checkManifest (candidate : ActionCandidate) : Asking (Except String Unit) := call (.checkManifest candidate)
def remotePutBlobs (blobs : List BlobBytes) : Asking (Except String Unit) := call (.remotePutBlobs blobs)
def remotePutCandidate (candidate : ActionCandidate) : Asking (Except String Unit) := call (.remotePutCandidate candidate)
def hasEntries (directory : Text) : Asking Bool := call (.hasEntries directory)
def remapPlan : Asking (List (Text × Text)) := call .remapPlan
def createLinkRecord (outDir : Text) : Asking (Except String Text) := call (.createLinkRecord outDir)
def rustc (args : List Text) (env : List (Text × Text)) : Asking (Except String RustcRun) := call (.rustc args env)
def readLinkRecord (path : Text) : Asking (Except String Text) := call (.readLinkRecord path)
def capture (request : CaptureRequest) : Asking (Except CaptureError Stored) := call (.capture request)
def passthrough (raw : List OsText) : Asking (Except String ExitStatus) := call (.passthrough raw)
def isFile (path : Text) : Asking Bool := call (.isFile path)
def removeLauncher (outDir unitFile : Text) : Asking Unit := call (.removeLauncher outDir unitFile)
def installLauncher (outDir unitFile : Text) : Asking (Except String Unit) := call (.installLauncher outDir unitFile)

def success : ExitStatus := ⟨0⟩

/-- What is known once the caches may be asked. -/
structure Job where
  invocation : Analysis
  identity : BuildIdentity
  remote : Bool
  l1 : Bool

def Job.staticKey (job : Job) : Text := job.identity.staticKey

def Job.record (job : Job) (kind detail : String) (actionKey : Option Text) : Asking Unit :=
  Wrapper.record ⟨kind, job.invocation.crateName, some job.staticKey, actionKey, detail⟩

/-! ## Restoring -/

def hitDetail (say : String) (job : Job) (candidate : ActionCandidate) : String :=
  say ++ " (" ++ OutputKind.name job.invocation.kind ++ " output" ++
    (if candidate.procMacros = [] then ""
      else "; proc macros: " ++ ", ".intercalate (candidate.procMacros.map display)) ++ ")"

/-- The digests that a restore fetches. -/
def restoredDigests (candidate : ActionCandidate) : List Text :=
  candidate.artifacts.map (·.digest) ++ [candidate.stdout.digest, candidate.stderr.digest]

/-- `restore_with` -/
def restoreWith (candidate : ActionCandidate) (fetch : List Text → Asking (Except String (List (List UInt8)))) :
    Asking (Except String Unit) := do
  match ← checkOutputs candidate with
  | .error error => return .error error
  | .ok () =>
    match ← fetch (restoredDigests candidate) with
    | .error error => return .error error
    | .ok blobs =>
      if blobs.length ≠ (restoredDigests candidate).length then
        return .error s!"blob fetch returned {blobs.length} of {(restoredDigests candidate).length} blobs"
      else (install candidate blobs)

/-- What `restore` fetches with: what came is kept in the local store, which
may fail. -/
def fetchRemote (job : Job) (digests : List Text) : Asking (Except String (List (List UInt8))) := do
  match ← remoteBlobs digests with
  | .error error => return .error error
  | .ok blobs =>
    if job.l1 then (digests.zip blobs).forM fun blob => do let _ ← putBlob blob
    return .ok blobs

def restore (job : Job) (candidate : ActionCandidate) : Asking (Except String Unit) :=
  restoreWith candidate (fetchRemote job)

def restoreL1 (candidate : ActionCandidate) : Asking (Except String Unit) := do
  match ← restoreWith candidate fun digests => (readBlobs digests) with
  | .error error => return .error ("L1: " ++ error)
  | .ok () => return .ok ()

def tryCandidates (job : Job) : List ActionCandidate → Asking (Option ExitStatus)
  | [] => return none
  | candidate :: rest => do
    match ← validate candidate with
    | .error reason =>
      job.record "candidate_rejected" reason (some candidate.actionKey)
      tryCandidates job rest
    | .ok () =>
      remoteRecordUse candidate
      match ← restore job candidate with
      | .ok () =>
        if job.l1 then let _ ← putCandidate candidate
        job.record "hit" (hitDetail "restored remote compiler result" job candidate) (some candidate.actionKey)
        return some success
      | .error error =>
        job.record "corrupt" ("candidate rejected during restore: " ++ error) (some candidate.actionKey)
        tryCandidates job rest

/-- Both stores collect the least recently used records first. -/
def recordReuse (job : Job) (candidate : ActionCandidate) : Asking Unit :=
  if job.remote then remoteRecordUse candidate else return ()

def tryL1Candidates (job : Job) : List ActionCandidate → Asking (Option ExitStatus)
  | [] => return none
  | candidate :: rest => do
    match ← validate candidate with
    | .error reason =>
      job.record "candidate_rejected" ("local cache: " ++ reason) (some candidate.actionKey)
      tryL1Candidates job rest
    | .ok () =>
      recordReuse job candidate
      match ← restoreL1 candidate with
      | .ok () =>
        recordUse candidate
        job.record "l1_hit" (hitDetail "restored runner-local compiler result" job candidate) (some candidate.actionKey)
        return some success
      | .error error =>
        job.record "corrupt" ("L1 candidate rejected: " ++ error) (some candidate.actionKey)
        tryL1Candidates job rest

/-- The first reason to refuse one of the candidates. -/
def firstRefusal : List ActionCandidate → Asking (Option String)
  | [] => return none
  | candidate :: rest => do
    match ← validate candidate with
    | .error reason => return some reason
    | .ok () => firstRefusal rest

def explainCandidates (index : List ActionCandidate) : Asking String := do
  if index = [] then return "no candidate for this static identity"
  else
    return (← firstRefusal index).getD
      "candidate artifacts unavailable or restore failed; see corrupt event for the blob/path error"

/-! ## Compiling -/

/-- The unit's own incremental directory. -/
def unitIncremental (job : Job) : Option Text :=
  job.invocation.incremental.map fun dir =>
    join (absolutePath dir job.identity.workspace) (job.invocation.crateName ++ "-bellows".toList ++
      (stripPrefix? job.invocation.crateName job.invocation.unit).getD [])

/-- The arguments with the incremental directory in the place of the one they
name; `rewriteNext` is whether the argument before was `-C`. -/
def rewriteIncremental (directory : Option Text) : Bool → List Text → List Text
  | _, [] => []
  | rewriteNext, arg :: rest =>
    let replacement := directory.map fun dir => "incremental=".toList ++ dir
    if rewriteNext && "incremental=".toList.isPrefixOf arg then
      replacement.getD arg :: rewriteIncremental directory false rest
    else if "-Cincremental=".toList.isPrefixOf arg then
      ("-C".toList ++ replacement.getD (arg.drop 2)) :: rewriteIncremental directory false rest
    else arg :: rewriteIncremental directory (arg == "-C".toList) rest

def remapArgs (plan : List (Text × Text)) : List Text :=
  plan.flatMap fun entry => ["--remap-path-prefix".toList, entry.1 ++ '=' :: entry.2]

/-- The linker command that rustc recorded. -/
def linkCommand : Option Text → Asking (Except String (Option Text))
  | none => return .ok none
  | some path => do
    match ← readLinkRecord path with
    | .error error => return .error ("read link-args record: " ++ error)
    | .ok command => return .ok (some command)

/-- The result of a run, unless it has something of an earlier one in it. -/
def captureRun (reusedSession : Bool) (request : CaptureRequest) : Asking (Except CaptureError Stored) :=
  if reusedSession then
    return .error (.notStored "incremental compile reused an existing session; result stays in this checkout")
  else capture request

def captureMessage : CaptureError → String
  | .notStored reason => reason
  | .failed message => message
  | .io call path => call ++ " " ++ display path
  | .outOfFuel => "the walk does not end"

/-- What follows a run that succeeded, once the linker's command is known. -/
def keepLinked (job : Job) (reusedSession : Bool) (run : RustcRun) (linkCommand : Option Text) :
    Asking (Except String (ExitStatus × Option Stored)) := do
  match ← captureRun reusedSession ⟨run, linkCommand⟩ with
  | .ok stored => return .ok (run.status, some stored)
  | .error (.notStored reason) =>
    job.record "not_stored" ("compiled but not stored: " ++ reason) none
    return .ok (run.status, none)
  | .error error =>
    job.record "fallback" ("capture skipped after successful rustc: " ++ captureMessage error) none
    return .ok (run.status, none)

/-- What follows a run that succeeded. -/
def keepRun (job : Job) (reusedSession : Bool) (linkRecord : Option Text) (run : RustcRun) :
    Asking (Except String (ExitStatus × Option Stored)) := do
  match ← linkCommand linkRecord with
  | .error error => return .error error
  | .ok linkCommand => keepLinked job reusedSession run linkCommand

/-- Where rustc is to write its linker command, if it runs a linker. -/
def linkRecord (job : Job) : Asking (Except String (Option Text)) :=
  if job.invocation.kind = .linked then do
    match ← createLinkRecord job.invocation.outDir with
    | .error error => return .error error
    | .ok path => return .ok (some path)
  else return .ok none

def demoDelay : Asking Unit := do
  match (← var "BELLOWS_DEMO_COMPILE_DELAY_MS").bind fun value => parseU64 value.toList with
  | some ms => delay (min ms 10000)
  | none => return ()

/-- Whether the incremental directory has a session of an earlier compile. -/
def reusesSession (job : Job) : Asking Bool :=
  match unitIncremental job with
  | some directory => hasEntries directory
  | none => return false

def compileAndCapture (job : Job) : Asking (Except String (ExitStatus × Option Stored)) := do
  demoDelay
  let reusedSession ← reusesSession job
  let plan ← remapPlan
  match ← linkRecord job with
  | .error error => return .error error
  | .ok linkRecord =>
    let args := rewriteIncremental (unitIncremental job) false job.invocation.args ++ remapArgs plan ++
      linkRecord.toList.map fun path => "--print=link-args=".toList ++ path
    match ← rustc args job.identity.virtualEnv with
    | .error error => return .error error
    | .ok run =>
      if run.status.success then keepRun job reusedSession linkRecord run
      else return .ok (run.status, none)

/-! ## The lease on a cold compile -/

def boundedTimeout (name : String) (value : Option String) (defaultMs minimumMs maximumMs : Nat) :
    Except String Nat := do
  let milliseconds ← match value with
    | some value => Checked.okOr (parseU64 value.toList) (name ++ " must be an integer number of milliseconds")
    | none => pure defaultMs
  if minimumMs ≤ milliseconds ∧ milliseconds ≤ maximumMs then return milliseconds
  else throw s!"{name} must be between {minimumMs} and {maximumMs} milliseconds"

/-- How the wait for a lease ends: with another's result, with the lease, or
with neither. -/
inductive Waited where
  | hit (status : ExitStatus)
  | owned (token : Text)
  | neither

/-- The candidates whose action key is new, and the keys then. -/
def unchecked (checked : List Text) : List ActionCandidate → List Text × List ActionCandidate
  | [] => (checked, [])
  | candidate :: rest =>
    if candidate.actionKey ∈ checked then unchecked checked rest
    else
      let (checked, new) := unchecked (candidate.actionKey :: checked) rest
      (checked, candidate :: new)

/-- What was published while we wait. -/
def tryPublished (job : Job) (checked : List Text) : Asking (List Text × Option ExitStatus) := do
  match ← remoteCandidates job.staticKey with
  | .error _ => return (checked, none)
  | .ok index =>
    let (checked, new) := unchecked checked index
    match ← tryCandidates job new with
    | some status =>
      job.record "single_flight" "restored result published by lease owner" none
      return (checked, some status)
    | none => return (checked, none)

/-- What a wait is given. -/
structure Wait where
  request : LeaseRequest
  retryAfterMs : Nat
  expiresMs : Nat
  maxWait : Nat

def Wait.pause (wait : Wait) : Nat := max 50 (min wait.retryAfterMs 1000)

def timedOut (job : Job) : Asking Waited := do
  job.record "fallback" "single-flight wait timed out; compiling locally" none
  return .neither

/-- The loop; `elapsed` is how long it has been waited. -/
def waitForOwner (job : Job) (wait : Wait) (elapsed : Nat) (checked : List Text) : Asking Waited :=
  if elapsed < wait.maxWait then do
    if (← nowMs) < wait.expiresMs then
      let more ← sleep wait.pause
      let (checked, hit) ← tryPublished job checked
      match hit with
      | some status => return .hit status
      | none =>
        match ← acquire job.staticKey wait.request with
        | .ok (.owned token _) =>
          job.record "lease_acquired"
            "acquired released lease; no published candidate matches this invocation" none
          return .owned token
        | .ok (.wait ..) => waitForOwner job wait (elapsed + wait.pause + more) checked
        | .error error =>
          job.record "fallback" ("lease unavailable while waiting: " ++ error) none
          return .neither
    else timedOut job
  else timedOut job
termination_by wait.maxWait - elapsed
decreasing_by
  have : 50 ≤ wait.pause := le_max_left _ _
  omega

/-- `max_wait` -/
def maxWait (job : Job) : Asking Nat := do
  match boundedTimeout "BELLOWS_MAX_WAIT_MS" (← var "BELLOWS_MAX_WAIT_MS") 30000 0 600000 with
  | .ok duration => return duration
  | .error error =>
    job.record "fallback" ("invalid single-flight wait limit: " ++ error) none
    return 0

def takeLease (job : Job) (index : List ActionCandidate) (client : Text) : Asking Waited := do
  let request : LeaseRequest := ⟨client, 120000⟩
  match ← acquire job.staticKey request with
  | .ok (.owned token _) => return .owned token
  | .ok (.wait retryAfterMs expiresMs) =>
    job.record "wait" "another runner owns this cold action" none
    let maxWait ← maxWait job
    waitForOwner job ⟨request, retryAfterMs, expiresMs, maxWait⟩ (← deadline) (index.map (·.actionKey))
  | .error error =>
    job.record "fallback" ("lease unavailable: " ++ error) none
    return .neither

/-! ## Publishing -/

/-- `cache_captured`, its blobs. -/
def putBlobs : List BlobBytes → Asking (Except String Unit)
  | [] => return .ok ()
  | blob :: rest => do
    match ← putBlob blob with
    | .error error => return .error error
    | .ok () => putBlobs rest

def cacheCaptured (stored : Stored) : Asking (Except String Unit) := do
  match ← putBlobs stored.blobs with
  | .error error => return .error error
  | .ok () => putCandidate stored.candidate

def publish (stored : Stored) : Asking (Except String Text) := do
  match ← checkManifest stored.candidate with
  | .error error => return .error ("validate captured candidate: " ++ error)
  | .ok () =>
    match ← remotePutBlobs stored.blobs with
    | .error error => return .error error
    | .ok () =>
      match ← remotePutCandidate stored.candidate with
      | .error error => return .error error
      | .ok () => return .ok stored.candidate.actionKey

def scope (job : Job) (stored : Stored) : String :=
  " (" ++ OutputKind.name job.invocation.kind ++
    if stored.pinned then " output, pinned to this checkout: it embeds the workspace or target path)"
    else " output, shareable across checkouts)"

/-- Whether it was. -/
def storeLocally (job : Job) (stored : Stored) : Asking Bool :=
  if job.l1 then do
    match ← cacheCaptured stored with
    | .ok () => return true
    | .error error =>
      job.record "fallback" ("L1 publication failed: " ++ error) none
      return false
  else return false

def storeRemotely (job : Job) (stored : Stored) : Asking Unit := do
  match ← publish stored with
  | .ok actionKey => job.record "store" ("published compiler result" ++ scope job stored) (some actionKey)
  | .error error =>
    -- a result larger than the server accepts stays local
    if "413".toList <:+: error.toList then
      job.record "not_stored" ("compiled but not stored remotely: an output exceeds the server's blob size limit " ++
        "(kept in the local cache)") none
    else job.record "fallback" ("upload failed after successful local compile: " ++ error) none

/-- Without a server, the local store is where the result went. -/
def recordStored (job : Job) (stored : Stored) (storedLocally : Bool) : Asking Unit :=
  if storedLocally && !job.remote then
    job.record "store" ("stored compiler result" ++ scope job stored) (some stored.candidate.actionKey)
  else return ()

def store (job : Job) (remoteAvailable : Bool) (stored : Stored) : Asking Unit := do
  recordStored job stored (← storeLocally job stored)
  if job.remote && remoteAvailable then storeRemotely job stored

def releaseToken (job : Job) (token : Option Text) : Asking Unit :=
  match token with
  | some token => if job.remote then release job.staticKey token else return ()
  | none => return ()

/-- What a compile that succeeded leaves to be stored; a read-only client
stores nothing. -/
def storeCaptured (job : Job) (remoteAvailable : Bool) : Option Stored → Asking Unit
  | none => return ()
  | some stored => do
    if (← var "BELLOWS_READ_ONLY") == some "1" then return ()
    else store job remoteAvailable stored

def compileUnder (job : Job) (remoteAvailable : Bool) (token : Option Text) : Asking (Except String ExitStatus) := do
  match ← compileAndCapture job with
  | .error error =>
    releaseToken job token
    return .error error
  | .ok (status, stored) =>
    if status.success then storeCaptured job remoteAvailable stored
    releaseToken job token
    return .ok status

/-! ## The whole of it -/

def wrapperCrateName : List OsText → Text
  | arg :: next :: rest =>
    if arg = osText "--crate-name".toList then (toStr next).getD "rustc".toList else wrapperCrateName (next :: rest)
  | _ => "rustc".toList

def explainCache (cache : String) (index : List ActionCandidate) : Asking (List String) := do
  if index = [] then return [] else return [cache ++ (← explainCandidates index)]

/-- Why there was no hit. -/
def missDetail (job : Job) (l1Disabled remoteAvailable : Bool) (identityHint : String)
    (localIndex index : List ActionCandidate) : Asking String := do
  let ofLocal ← explainCache "local cache: " localIndex
  let ofRemote ← explainCache "remote cache: " index
  return "; ".intercalate (ofLocal ++ ofRemote ++
    (if job.remote && !remoteAvailable then ["remote unavailable (see fallback event for request error)"] else []) ++
    (if !job.l1 && !l1Disabled then ["local cache unavailable (see fallback event)"] else []) ++
    if localIndex = [] ∧ index = [] then [identityHint] else [])

/-- The server's candidates, and whether it answered. -/
def remoteIndex (job : Job) : Asking (List ActionCandidate × Bool) :=
  if job.remote then do
    match ← remoteCandidates job.staticKey with
    | .ok index => return (index, true)
    | .error error =>
      job.record "fallback" ("remote unavailable: " ++ error) none
      return ([], false)
  else return ([], false)

/-- The lease, where the server can be asked for it. -/
def leaseFor (job : Job) (remoteAvailable : Bool) (index : List ActionCandidate) (client : Text) : Asking Waited :=
  if job.remote && remoteAvailable then takeLease job index client else return .neither

/-- A compile of what neither cache has, under a lease if there is one. -/
def compileCold (job : Job) (remoteAvailable : Bool) (index : List ActionCandidate) :
    Asking (Except String ExitStatus) := do
  let client := toString (← pid) ++ "-" ++ toString (← nowMs)
  match ← leaseFor job remoteAvailable index client.toList with
  | .hit status => return .ok status
  | .owned token => compileUnder job remoteAvailable (some token)
  | .neither => compileUnder job remoteAvailable none

def tryRemoteCandidates (job : Job) (index : List ActionCandidate) : Asking (Option ExitStatus) :=
  if job.remote then tryCandidates job index else return none

/-- After the local store. -/
def tryRemote (job : Job) (l1Disabled : Bool) (identityHint : String) (localIndex : List ActionCandidate) :
    Asking (Except String ExitStatus) := do
  let (index, remoteAvailable) ← remoteIndex job
  match ← tryRemoteCandidates job index with
  | some status => return .ok status
  | none =>
    job.record "miss" (← missDetail job l1Disabled remoteAvailable identityHint localIndex index) none
    compileCold job remoteAvailable index

/-- The local candidates, and what was restored of them. -/
def tryL1 (job : Job) : Asking (List ActionCandidate × Option ExitStatus) :=
  if job.l1 then do
    match ← readCandidates job.staticKey with
    | .ok index => return (index, ← tryL1Candidates job index)
    | .error error =>
      job.record "fallback" ("L1 index is unavailable or corrupt: " ++ error) none
      return ([], none)
  else return ([], none)

def openL1 (job : Job) (localOnly l1Disabled : Bool) : Asking Bool :=
  if l1Disabled then return false
  else do
    match ← openStore localOnly with
    | .ok () => return true
    | .error error =>
      job.record "fallback" ("L1 is unavailable: " ++ error) none
      return false

def connectRemote (localOnly : Bool) : Asking (Except String Bool) :=
  if localOnly then return .ok false
  else do
    let server := (← var "BELLOWS_SERVER").getD "http://127.0.0.1:7878"
    match ← connect server (← var "BELLOWS_AUTH_TOKEN") with
    | .ok () => return .ok true
    | .error error => return .error error

def identityHint : Asking String := do
  match ← rememberIdentity with
  | .ok hint => return hint
  | .error error => return "no usable candidate; diagnostic identity history unavailable: " ++ error

/-- Once the compile has an identity. -/
def cacheIdentified (raw : List OsText) (localOnly : Bool) (invocation : Analysis) (identity : BuildIdentity) :
    Asking (Except String ExitStatus) := do
  let unopened : Job := ⟨invocation, identity, false, false⟩
  match ← connectRemote localOnly with
  | .error error =>
    unopened.record "fallback" ("invalid remote configuration: " ++ error) none
    passthrough raw
  | .ok remote =>
    let l1Disabled := (← var "BELLOWS_L1") == some "0"
    let l1 ← openL1 unopened localOnly l1Disabled
    let job : Job := ⟨invocation, identity, remote, l1⟩
    let hint ← identityHint
    let (localIndex, hit) ← tryL1 job
    match hit with
    | some status => return .ok status
    | none => tryRemote job l1Disabled hint localIndex

def cacheOrCompile (raw : List OsText) : Asking (Except String ExitStatus) := do
  let localOnly := (← var "BELLOWS_LOCAL_ONLY") == some "1"
  match ← analyze raw with
  | .error reason =>
    record ⟨"bypass", wrapperCrateName raw, none, none, reason⟩
    passthrough raw
  | .ok invocation =>
    match ← buildIdentity invocation with
    | .error error =>
      record ⟨"fallback", invocation.crateName, none, none, "identity: " ++ error⟩
      passthrough raw
    | .ok identity => cacheIdentified raw localOnly invocation identity

/-! ### The build-script launcher -/

def isBuildScriptCompile (crateName outDir : Text) : Bool :=
  "build_script_".toList.isPrefixOf crateName && (parent outDir).any fun dir => fileName dir == "build".toList

/-- `unit_file`, of the host. -/
def unitFile (host : Naming) (crateName extraFilename : Text) : Text :=
  crateName ++ extraFilename ++ host.exeSuffix.toList

def buildScriptUnit (host : Naming) (raw : List OsText) : Option (Text × Text) := do
  let args ← (raw.drop 1).mapM toStr
  let crateName ← optionValue args "--crate-name"
  let outDir ← optionValue args "--out-dir"
  if !isBuildScriptCompile crateName outDir || !(multiOptionValues args "--emit").any fun emit =>
      (emit.splitOnP (· == ',')).any (· == "link".toList) then none
  else return (outDir, unitFile host crateName ((codegenValue args "extra-filename").getD []))

def removeOldLauncher (host : Naming) (raw : List OsText) : Asking Unit :=
  match buildScriptUnit host raw with
  | some (outDir, unitFile) => removeLauncher outDir unitFile
  | none => return ()

def installNewLauncher (host : Naming) (raw : List OsText) : Asking Unit :=
  match buildScriptUnit host raw with
  | none => return ()
  | some (outDir, unitFile) => do
    if ← isFile (join outDir unitFile) then
      match ← installLauncher outDir unitFile with
      | .ok () => pure ()
      | .error error =>
        record ⟨"fallback", wrapperCrateName raw, none, none,
          "build-script launcher not installed; the script runs uncached: " ++ error⟩

/-- What the cache fails with, official rustc makes good. -/
def orPassthrough (raw : List OsText) : Except String ExitStatus → Asking (Except String ExitStatus)
  | .ok status => return .ok status
  | .error error => do
    record ⟨"fallback", wrapperCrateName raw, none, none, "cache pipeline failed; retrying official rustc: " ++ error⟩
    passthrough raw

/-- A script that was compiled is launched by the wrapper. -/
def installAfter (host : Naming) (raw : List OsText) : Except String ExitStatus → Asking Unit
  | .ok status => if status.success then installNewLauncher host raw else return ()
  | .error _ => return ()

def rustcWrapper (host : Naming) (raw : List OsText) : Asking (Except String ExitStatus) := do
  removeOldLauncher host raw
  let result ← orPassthrough raw (← cacheOrCompile raw)
  installAfter host raw result
  record ⟨"compiler_timing", wrapperCrateName raw, none, none, "compiler wrapper elapsed time"⟩
  return result

end Bellows.Cli.Wrapper
