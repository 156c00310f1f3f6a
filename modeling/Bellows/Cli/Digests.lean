/-
Digests of large files, kept by what `stat` says of the file
(`Digests::file`, `Digests::remember`).

Two writes in one tick of the clock may leave a file with the same `stat`.
`file` keeps a digest only if the file was left alone for two seconds, but
`remember` keeps it at once, and `file` reads the clock after the bytes.
-/
import Mathlib.Logic.Function.Basic
import Bellows.Core.ActionKey
import Bellows.Cli.LinkCommand
import Bellows.Lib.Run

namespace Bellows.Cli.Digests

open Bellows.Core Transition

/-! ## What `stat` says -/

def SMALL : Nat := 256 * 1024

/-- Nanoseconds. -/
def RACY : Int := 2 * 1000000000

/-- `fs::Metadata`, its times in nanoseconds since the epoch. -/
structure Metadata where
  len : Nat
  modified : Int
  /-- Where the file system has one. -/
  created : Option Int
  dev : Nat
  ino : Nat
  /-- Seconds. -/
  ctime : Int
  ctimeNsec : Nat
  deriving DecidableEq, Repr

/-- The time of the last change of status. -/
def statusChanged (metadata : Metadata) : Int := max metadata.ctime 0 * 1000000000 + metadata.ctimeNsec

def changed (metadata : Metadata) : Int := max metadata.modified (statusChanged metadata)

/-- Times before the epoch, and absent ones, are 0. -/
def nanos (time : Option Int) : Nat := (time.getD 0).toNat

/-- The fields that are hashed, each but the first after a NUL. -/
def identityFields (path : Text) (metadata : Metadata) : Text :=
  "v1\x00".toList ++ path ++ '\x00' ::
    ['\x00'].intercalate [(toString metadata.len).toList, (toString (nanos (some metadata.modified))).toList,
      (toString (nanos metadata.created)).toList, (toString metadata.dev).toList, (toString metadata.ino).toList,
      (toString metadata.ctime).toList, (toString metadata.ctimeNsec).toList]

/-! ## The system -/

structure File where
  content : List UInt8
  metadata : Metadata

/-- A digest kept or on its way: that of these bytes, and when they were read
or written. -/
structure Kept where
  bytes : List UInt8
  obtained : Int

/-- What is given: the digest, whether there is a directory for the memo, and
the length of a tick of the file system's clock. Of the bytes hashed for
identities no two have one digest. -/
structure Setup where
  digestBytes : List UInt8 → Text
  root : Bool
  tick : Int
  Hashed : List UInt8 → Prop
  tick_lt : tick < RACY
  digest_valid : ∀ bytes, validContentKey (digestBytes bytes) = true
  digest_inj : ∀ a b, Hashed a → Hashed b → digestBytes a = digestBytes b → a = b

/-- A process. `version` is the path's when the call of `file` began. -/
inductive Phase where
  | idle
  /-- `file` found the file small, or there is no memo. -/
  | small (path : Text) (version : Nat)
  /-- `file` found it large. -/
  | stated (path : Text) (metadata : Metadata) (version : Nat)
  | missed (path : Text) (metadata : Metadata) (version : Nat)
  | hashed (path : Text) (metadata : Metadata) (version : Nat) (kept : Kept)
  | timed (path : Text) (metadata : Metadata) (version : Nat) (kept : Kept) (settled : Bool)
  /-- About to keep a digest under a key, in a call of `file` or in `remember`. -/
  | keyed (key : Text) (kept : Kept) (call : Option (Text × Nat))
  | returned (path : Text) (digest : Text) (version : Nat)
  | failed (path : Text) (version : Nat)
  /-- It read or wrote the file, and is about to call `remember`. -/
  | holding (path : Text) (kept : Kept)

structure State where
  now : Int
  files : Text → Option File
  /-- How often the path's file was written or removed. -/
  version : Text → Nat
  /-- When it was written last. -/
  writtenAt : Text → Int
  memo : Text → Option Kept
  phases : Nat → Phase

inductive Action where
  | wait (nanoseconds : Nat)
  /-- Anybody's write, or a change of the metadata alone. -/
  | write (path : Text) (content : List UInt8) (metadata : Metadata)
  | remove (path : Text)
  /-- An entry of the memo is pruned. -/
  | forget (key : Text)
  /-- The process `p` calls `file`: its first `stat`. -/
  | file (p : Nat) (path : Text)
  | readMemo (p : Nat) (readable : Bool)
  | hash (p : Nat)
  | clock (p : Nat)
  | restat (p : Nat)
  | memoize (p : Nat) (stored : Bool)
  /-- It reads a file whose digest is to be remembered. -/
  | take (p : Nat) (path : Text)
  /-- It writes one. -/
  | put (p : Nat) (path : Text) (content : List UInt8) (metadata : Metadata)
  /-- `remember`: its `stat`. -/
  | remember (p : Nat)
  /-- What it was doing is done, or given up. -/
  | stop (p : Nat)

namespace State

def start (now : Int) : State := ⟨now, fun _ => none, fun _ => 0, fun _ => now, fun _ => none, fun _ => .idle⟩

variable (s : State)

def setPhase (p : Nat) (phase : Phase) : State := { s with phases := Function.update s.phases p phase }

/-- The file at `path` is another from now on, or none. -/
def replaced (path : Text) (file : Option File) : State :=
  { s with
    files := Function.update s.files path file
    version := Function.update s.version path (s.version path + 1)
    writtenAt := Function.update s.writtenAt path s.now }

end State

namespace Setup

variable (u : Setup)

def identityBytes (path : Text) (metadata : Metadata) : List UInt8 := utf8 (identityFields path metadata)

def identity (path : Text) (metadata : Metadata) : Text := u.digestBytes (identityBytes path metadata)

/-- `digest_file`, in the call of `file` that found `version`. -/
def digestFile (s : State) (path : Text) (version : Nat) : Phase :=
  match s.files path with
  | some f => .returned path (u.digestBytes f.content) version
  | none => .failed path version

def step (s : State) : Action → Option State
  | .wait nanoseconds => some { s with now := s.now + nanoseconds }
  | .write path content metadata => some (s.replaced path (some ⟨content, metadata⟩))
  | .remove path => some (s.replaced path none)
  | .forget key => some { s with memo := Function.update s.memo key none }
  | .file p path =>
    match s.phases p with
    | .idle =>
      match s.files path with
      | none => some (s.setPhase p (.failed path (s.version path)))
      | some f =>
        if u.root = false ∨ f.metadata.len < SMALL then some (s.setPhase p (.small path (s.version path)))
        else some (s.setPhase p (.stated path f.metadata (s.version path)))
    | _ => none
  | .readMemo p readable =>
    match s.phases p with
    | .stated path metadata version =>
      match s.memo (u.identity path metadata) with
      | some kept =>
        let cached := trim (u.digestBytes kept.bytes)
        if readable ∧ validContentKey cached then some (s.setPhase p (.returned path cached version))
        else some (s.setPhase p (.missed path metadata version))
      | none => some (s.setPhase p (.missed path metadata version))
    | _ => none
  | .hash p =>
    match s.phases p with
    | .small path version => some (s.setPhase p (u.digestFile s path version))
    | .missed path metadata version =>
      match s.files path with
      | some f => some (s.setPhase p (.hashed path metadata version ⟨f.content, s.now⟩))
      | none => some (s.setPhase p (.failed path version))
    | _ => none
  | .clock p =>
    match s.phases p with
    | .hashed path metadata version kept =>
      some (s.setPhase p (.timed path metadata version kept (RACY < s.now - changed metadata)))
    | _ => none
  | .restat p =>
    match s.phases p with
    | .timed path metadata version kept settled =>
      let key := u.identity path metadata
      let unchanged := (s.files path).any fun after => u.identity path after.metadata = key
      if settled && unchanged then some (s.setPhase p (.keyed key kept (some (path, version))))
      else some (s.setPhase p (.returned path (u.digestBytes kept.bytes) version))
    | _ => none
  | .memoize p stored =>
    match s.phases p with
    | .keyed key kept call =>
      -- a failed write is ignored
      let memo := if stored then Function.update s.memo key (some kept) else s.memo
      match call with
      | some (path, version) =>
        some ({ s with memo }.setPhase p (.returned path (u.digestBytes kept.bytes) version))
      | none => some ({ s with memo }.setPhase p .idle)
    | _ => none
  | .take p path =>
    match s.phases p, s.files path with
    | .idle, some f => some (s.setPhase p (.holding path ⟨f.content, s.now⟩))
    | _, _ => none
  | .put p path content metadata =>
    match s.phases p with
    | .idle => some ((s.replaced path (some ⟨content, metadata⟩)).setPhase p (.holding path ⟨content, s.now⟩))
    | _ => none
  | .remember p =>
    match s.phases p with
    | .holding path kept =>
      match s.files path with
      | none => some (s.setPhase p .idle)
      | some f =>
        if u.root = false ∨ f.metadata.len < SMALL ∨ ¬ validContentKey (u.digestBytes kept.bytes) then
          some (s.setPhase p .idle)
        else some (s.setPhase p (.keyed (u.identity path f.metadata) kept none))
    | _ => none
  | .stop p => some (s.setPhase p .idle)

/-- What a file system makes of a write now: paths have no NUL, and the time
of the change is that of the tick. -/
structure Admits (s : State) (path : Text) (content : List UInt8) (metadata : Metadata) : Prop where
  path_clear : '\x00' ∉ path
  len : metadata.len = content.length
  hashed : u.Hashed (identityBytes path metadata)
  begun : statusChanged metadata ≤ s.now
  in_tick : s.now < statusChanged metadata + u.tick

/-- A step of the system. -/
def Steps (s : State) (a : Action) (t : State) : Prop :=
  u.step s a = some t ∧
    match a with
    | .write path content metadata | .put _ path content metadata => u.Admits s path content metadata
    | _ => True

/-! ## What is asked of it -/

/-- What a call of `file` ended with is right, if nothing was written
meanwhile. -/
def Correct (s : State) : Prop :=
  ∀ p path version, s.version path = version →
    (∀ digest, s.phases p = .returned path digest version →
      ∃ f, s.files path = some f ∧ digest = u.digestBytes f.content) ∧
    (s.phases p = .failed path version → s.files path = none)

/-- How many of its own steps a call of `file` has left at most. -/
def left : Phase → Nat
  | .stated .. => 5
  | .missed .. => 4
  | .hashed .. => 3
  | .timed .. => 2
  | .small .. | .keyed _ _ (some _) => 1
  | _ => 0

def ended : Phase → Bool
  | .returned .. | .failed .. => true
  | _ => false

/-- A call of `file` goes on, whatever the others do, and ends. -/
def GoesOn (s : State) : Prop :=
  ∀ p, 0 < left (s.phases p) → ∃ a t, u.Steps s a t ∧ left (t.phases p) < left (s.phases p) ∧
    (left (t.phases p) = 0 → ended (t.phases p) = true)

/-- The bytes were there within two seconds of the file's last change. -/
def Early (kept : Kept) (metadata : Metadata) : Prop := kept.obtained ≤ changed metadata + RACY

/-- A digest is kept under the key, or about to be. -/
def Keeps (s : State) (key : Text) (kept : Kept) : Prop :=
  s.memo key = some kept ∨ ∃ p call, s.phases p = .keyed key kept call

/-- The condition on a step under which digests are right: no write brings
back an identity that the early digest of other bytes is kept under, and where
an early digest is about to be kept, the file has its bytes still. -/
def Unmixed (s : State) : Action → Prop
  | .write path content metadata | .put _ path content metadata =>
    ∀ kept, Keeps s (u.identity path metadata) kept → Early kept metadata → content = kept.bytes
  | .restat p => ∀ path metadata version kept f, s.phases p = .timed path metadata version kept true →
      s.files path = some f → u.identity path f.metadata = u.identity path metadata →
        Early kept f.metadata → f.content = kept.bytes
  | .remember p => ∀ path kept f, s.phases p = .holding path kept → s.files path = some f →
      u.root = true → SMALL ≤ f.metadata.len → Early kept f.metadata → f.content = kept.bytes
  | _ => True

end Setup

end Bellows.Cli.Digests
