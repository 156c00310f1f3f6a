/-
Any number of operations on one store, in any order of their file operations,
any of which may fail, with processes that end and power failures at any time.
Every blob hashes to its name and every record validates, on disk too. A record
is changed to what an operation makes of it as it is at that moment.

An operation that fails may have been done. The lock is let go of when its
holder ends. A rename that is done is seen at once by all.
-/
import Mathlib.Data.Nat.Digits.Lemmas
import Mathlib.Logic.Equiv.List
import Mathlib.Tactic.DeriveEncodable
import Bellows.Core.DiskStoreFacts
import Bellows.Lib.Durable

namespace Bellows.Core.DiskStore

open Dialogue Durable

/-! ## The system -/

abbrev StoreDisk := Disk Place Bytes

/-- `blind` is whether a look at a file may fail, which is taken for its
absence. -/
inductive Does (blind : Prop) (d : StoreDisk) : (c : Call) → Answer c → StoreDisk → Prop
  | aside {c} (answer : Answer c) : c.aside = true → Does blind d c answer d
  | looked {place} : Does blind d (.exists place) (d.names place).isSome d
  | overlooked {place} : blind → Does blind d (.exists place) false d
  | read {place i} : d.names place = some i → Does blind d (.read place) (.ok (d.files i).content) d
  | unread {place} (e : IoError) : Does blind d (.read place) (.error e) d
  | create {place} : d.names place = none → Does blind d (.createNew place) (.ok d.fresh) (d.create place [])
  | created {place} (e : IoError) : d.names place = none → Does blind d (.createNew place) (.error e) (d.create place [])
  | uncreated {place} (e : IoError) : Does blind d (.createNew place) (.error e) d
  | write {file bytes} : Does blind d (.write file bytes) (.ok ()) (d.write file ((d.files file).content ++ bytes))
  | unwritten {file bytes} (e : IoError) (content : Bytes) :
      Does blind d (.write file bytes) (.error e) (d.write file content)
  | sync {file} (answer : Except IoError Unit) : Does blind d (.sync file) answer (d.sync file)
  | unsynced {file} (e : IoError) : Does blind d (.sync file) (.error e) d
  | rename {src dst} (answer : Except IoError Unit) : d.names src ≠ none →
      Does blind d (.rename src dst) answer (d.rename src dst)
  | unrenamed {src dst} (e : IoError) : Does blind d (.rename src dst) (.error e) d
  | remove {place} (answer : Except IoError Unit) : Does blind d (.remove place) answer (d.remove place)
  | unremoved {place} (e : IoError) : Does blind d (.remove place) (.error e) d
  | syncDir {folder} (answer : Except IoError Unit) :
      Does blind d (.syncDir folder) answer (d.syncDir Place.folder folder)
  | dirUnsynced {folder} (e : IoError) : Does blind d (.syncDir folder) (.error e) d

structure Client where
  op : Op
  told : Told
  program : Asking (Except Failure Bool)

structure Runs where
  disk : StoreDisk
  lock : Option Text
  /-- Temporary numbers from here on were not given. -/
  numbers : Nat
  clients : Text → Option Client

inductive Event where
  | start (id : Text)
  | act (id : Text)
  | number (id : Text)
  | lock (id : Text)
  | unlock (id : Text)
  /-- The operation is over, or its process ends. -/
  | leave (id : Text)
  | powerFailure
  deriving DecidableEq, Repr

namespace Runs

def put (s : Runs) (id : Text) (client : Option Client) : Runs :=
  { s with clients := Function.update s.clients id client }

/-- Answered, the client goes on. -/
def goes (s : Runs) (f : Format) (id : Text) (op : Op) (told : Told) {c : Call}
    (next : Answer c → Asking (Except Failure Bool)) (answer : Answer c) : Runs :=
  s.put id (some ⟨op, told.after f c answer, next answer⟩)

end Runs

inductive Step (f : Format) (blind : Prop) (s : Runs) : Event → Runs → Prop
  | start {id} (op : Op) : s.clients id = none → op.Bounded →
      Step f blind s (.start id) (s.put id (some ⟨op, .init, (op.program f).run⟩))
  | act {id op told c next answer d} : s.clients id = some ⟨op, told, .call c next⟩ → Does blind s.disk c answer d →
      Step f blind s (.act id) ({ s with disk := d }.goes f id op told next answer)
  | number {id op told next} (n : Nat) : s.clients id = some ⟨op, told, .call .tempNumber next⟩ → s.numbers ≤ n →
      Step f blind s (.number id) ({ s with numbers := n + 1 }.goes f id op told next n)
  | lock {id op told next} : s.clients id = some ⟨op, told, .call .lock next⟩ → s.lock = none →
      Step f blind s (.lock id) ({ s with lock := some id }.goes f id op told next (.ok ()))
  | unlockable {id op told next} (e : IoError) : s.clients id = some ⟨op, told, .call .lock next⟩ →
      Step f blind s (.lock id) (s.goes f id op told next (.error e))
  /-- Where unlocking fails, closing the file lets go of the lock. -/
  | unlock {id op told next} (answer : Except IoError Unit) : s.clients id = some ⟨op, told, .call .unlock next⟩ →
      Step f blind s (.unlock id) ({ s with lock := none }.goes f id op told next answer)
  | leave {id} : Step f blind s (.leave id) ({ s with lock := if s.lock = some id then none else s.lock }.put id none)
  | powerFailure {d} (lost : Set Folder) : Disk.Fails Place.folder lost s.disk d →
      Step f blind s .powerFailure ⟨d, none, s.numbers, fun _ => none⟩

/-! ## What holds -/

/-- Blobs and records. -/
def published : Set Place := { place | (∃ digest, place = .blob digest) ∨ ∃ path, place = .record path }

def Good (f : Format) : Place → Bytes → Prop
  | .blob digest, content => f.digest content = digest
  | .record path, content => ∃ value, f.decode path content = .ok value ∧ valid f.validators path value = true
  | _, _ => True

/-- What a record is. -/
def view (f : Format) (d : StoreDisk) (path : RecordPath) : Option (Contents path) :=
  (d.names (.record path)).bind fun i => (f.decode path (d.files i).content).toOption

/-- A file that nobody else writes to, and that is not published. -/
structure Temp.Own (d : StoreDisk) (temp : Temp) : Prop where
  fresh : temp.file < d.fresh
  apart : d.Apart published temp.file
  content : (d.files temp.file).content = temp.content
  synced : temp.synced = true → (d.files temp.file).synced = true
  place : ∃ folder n, temp.place = .temp folder n
  names : ∀ i, d.names temp.place = some i → i = temp.file

/-- The numbers of the own temporary files. -/
def Told.Owns (told : Told) (n : Nat) : Prop :=
  told.number = some n ∨ ∃ temp folder, told.temp = some temp ∧ temp.place = .temp folder n

/-- What is known is so. -/
structure Told.Sound (f : Format) (blind : Prop) (d : StoreDisk) (told : Told) : Prop where
  temp : ∀ temp, told.temp = some temp → temp.Own d
  seen : ∀ path value, ⟨path, value⟩ ∈ told.seen →
    told.locked = true ∧ (¬ blind → view f d path = value) ∧ ∀ v, value = some v → valid f.validators path v = true
  bad : told.bad = []
  placed : ∀ place, told.placed = some place → place ∈ published ∧ (told.locked = true → d.names place ≠ none)
  lasting : ∀ place ∈ told.lasting, place ∈ published ∧ (told.locked = true → ∃ i, d.maybe place = [some i])

/-- Two operations have nothing in common. -/
structure Told.Apart (told other : Told) : Prop where
  numbers : ∀ n, told.Owns n → ¬ other.Owns n
  files : ∀ temp temp', told.temp = some temp → other.temp = some temp' → temp.file ≠ temp'.file

section Disk

variable {f : Format} {d : StoreDisk} {temp : Temp} {p q src dst : Place} {i : Nat} {content : Bytes} {path : RecordPath}

@[simp] theorem blob_mem_published (digest : Text) : .blob digest ∈ published := .inl ⟨digest, rfl⟩

@[simp] theorem record_mem_published (path : RecordPath) : .record path ∈ published := .inr ⟨path, rfl⟩

@[simp] theorem temp_not_mem_published (folder : Folder) (n : Nat) : .temp folder n ∉ published := by
  simp [published]

theorem Temp.Own.ne_published (h : temp.Own d) (hq : q ∈ published) : temp.place ≠ q := by
  obtain ⟨folder, n, hplace⟩ := h.place
  exact fun he => temp_not_mem_published folder n (hplace ▸ he ▸ hq)

/-! ### What is done elsewhere -/

namespace Temp.Own

variable (h : temp.Own d)

include h

theorem create (hq : q ∉ published) (hne : temp.place ≠ q) : temp.Own (d.create q content) where
  fresh := h.fresh.trans (Nat.lt_succ_self _)
  apart := h.apart.mono fun p hp hi => (Disk.mem_maybe_create hi).resolve_right fun hpq => hq (hpq.1 ▸ hp)
  content := by rw [Disk.files_create, if_neg h.fresh.ne, h.content]
  synced := by rw [Disk.files_create, if_neg h.fresh.ne]; exact h.synced
  place := h.place
  names i hi := h.names i (by rwa [Disk.names_create, if_neg hne] at hi)

theorem write (hne : temp.file ≠ i) : temp.Own (d.write i content) where
  fresh := h.fresh
  apart := h.apart
  content := by rw [Disk.files_write, if_neg hne, h.content]
  synced := by rw [Disk.files_write, if_neg hne]; exact h.synced
  place := h.place
  names := h.names

theorem sync : temp.Own (d.sync i) where
  fresh := h.fresh
  apart := h.apart
  content := Disk.content_sync.trans h.content
  synced hsynced := Disk.synced_sync (h.synced hsynced)
  place := h.place
  names := h.names

theorem remove : temp.Own (d.remove q) where
  fresh := h.fresh
  apart := h.apart.mono fun _ _ => Disk.mem_maybe_remove
  content := h.content
  synced := h.synced
  place := h.place
  names i hi := by
    rw [Disk.names_remove] at hi
    split at hi
    · cases hi
    · exact h.names i hi

theorem rename (hdst : dst ∈ published) (hne : d.names src ≠ some temp.file) : temp.Own (d.rename src dst) where
  fresh := h.fresh
  apart := h.apart.mono fun _ _ hi => (Disk.mem_maybe_rename hi).resolve_right fun hsrc => hne hsrc.2
  content := h.content
  synced := h.synced
  place := h.place
  names i hi := by
    rw [Disk.names_rename, if_neg (h.ne_published hdst)] at hi
    split at hi
    · cases hi
    · exact h.names i hi

theorem syncDir {folder : Folder} : temp.Own (d.syncDir Place.folder folder) where
  fresh := h.fresh
  apart := h.apart.mono fun _ _ => Disk.mem_maybe_syncDir
  content := h.content
  synced := h.synced
  place := h.place
  names := h.names

end Temp.Own

/-! ### What is done to the own file -/

theorem Temp.own_created (hd : d.Whole published (Good f)) (folder : Folder) (n : Nat) :
    Temp.Own (d.create (.temp folder n) []) ⟨.temp folder n, d.fresh, [], false⟩ where
  fresh := Nat.lt_succ_self _
  apart := (hd.apart_fresh le_rfl).mono fun p hp hi =>
    (Disk.mem_maybe_create hi).resolve_right fun hpq => temp_not_mem_published folder n (hpq.1 ▸ hp)
  content := by rw [Disk.files_create, if_pos rfl]
  synced := nofun
  place := ⟨folder, n, rfl⟩
  names i hi := by
    rw [Disk.names_create, if_pos rfl] at hi
    exact (Option.some.inj hi).symm

theorem Temp.Own.written (h : temp.Own d) (bytes : Bytes) :
    Temp.Own (d.write temp.file ((d.files temp.file).content ++ bytes))
      { temp with content := temp.content ++ bytes, synced := false } where
  fresh := h.fresh
  apart := h.apart
  content := by rw [Disk.files_write, if_pos rfl, h.content]
  synced := nofun
  place := h.place
  names := h.names

theorem Temp.Own.whole (h : temp.Own d) : Temp.Own (d.sync temp.file) { temp with synced := true } :=
  { h.sync with
    synced := fun _ => by rw [Disk.files_sync, if_pos rfl] }

/-! ### What a record is -/

theorem view_congr {d' : StoreDisk} (hnames : d'.names (.record path) = d.names (.record path))
    (hfiles : ∀ i, d.names (.record path) = some i → (d'.files i).content = (d.files i).content) :
    view f d' path = view f d path := by
  unfold view
  rw [hnames]
  cases h : d.names (.record path) with
  | none => rfl
  | some i => simp only [Option.bind_some, hfiles i h]

theorem view_create (hd : d.Whole published (Good f)) (hq : q ∉ published) :
    view f (d.create q content) path = view f d path := by
  have hne : Place.record path ≠ q := fun he => hq (he ▸ record_mem_published path)
  refine view_congr (by rw [Disk.names_create, if_neg hne]) fun i hi => ?_
  have hlt := (hd _ (record_mem_published path) i (hi ▸ Disk.names_mem_maybe d _)).1
  rw [Disk.files_create, if_neg hlt.ne]

theorem view_write (hapart : d.Apart published i) : view f (d.write i content) path = view f d path := by
  refine view_congr rfl fun j hj => ?_
  have hne : j ≠ i := hapart.ne (record_mem_published path) (hj ▸ Disk.names_mem_maybe d _)
  rw [Disk.files_write, if_neg hne]

theorem view_sync : view f (d.sync i) path = view f d path := view_congr rfl fun _ _ => Disk.content_sync

theorem view_remove (hne : .record path ≠ q) : view f (d.remove q) path = view f d path :=
  view_congr (by rw [Disk.names_remove, if_neg hne]) fun _ _ => rfl

theorem view_rename (hsrc : .record path ≠ src) (hdst : .record path ≠ dst) :
    view f (d.rename src dst) path = view f d path :=
  view_congr (by rw [Disk.names_rename, if_neg hsrc, if_neg hdst]) fun _ _ => rfl

theorem view_syncDir {folder : Folder} : view f (d.syncDir Place.folder folder) path = view f d path := rfl

/-- What is there is valid. -/
theorem view_of_names (hd : d.Whole published (Good f)) (hi : d.names (.record path) = some i) :
    ∃ value, view f d path = some value ∧ f.decode path (d.files i).content = .ok value ∧
      valid f.validators path value = true := by
  obtain ⟨-, -, value, hdecode, hvalid⟩ := hd _ (record_mem_published path) i (hi ▸ Disk.names_mem_maybe d _)
  refine ⟨value, ?_, hdecode, hvalid⟩
  rw [view, hi, Option.bind_some, hdecode]
  rfl

/-- Between the two, blobs and records are the same. -/
structure Quiet (f : Format) (d d' : StoreDisk) : Prop where
  view : ∀ path, view f d' path = view f d path
  names : ∀ p ∈ published, d'.names p = d.names p
  lasting : ∀ p ∈ published, ∀ i, d.maybe p = [some i] → d'.maybe p = [some i]

theorem Quiet.refl (d : StoreDisk) : Quiet f d d := ⟨fun _ => rfl, fun _ _ => rfl, fun _ _ _ hi => hi⟩

theorem quiet_create (hd : d.Whole published (Good f)) (hq : q ∉ published) : Quiet f d (d.create q content) where
  view _ := view_create hd hq
  names p hp := by rw [Disk.names_create, if_neg (ne_of_mem_of_not_mem hp hq)]
  lasting p hp i hi := by rwa [Disk.maybe_create, if_neg (ne_of_mem_of_not_mem hp hq)]

theorem quiet_write (hapart : d.Apart published i) : Quiet f d (d.write i content) where
  view _ := view_write hapart
  names _ _ := rfl
  lasting _ _ _ hi := hi

theorem quiet_sync : Quiet f d (d.sync i) where
  view _ := view_sync
  names _ _ := rfl
  lasting _ _ _ hi := hi

theorem quiet_remove (hq : q ∉ published) : Quiet f d (d.remove q) where
  view path := view_remove fun he => hq (he ▸ record_mem_published path)
  names p hp := by rw [Disk.names_remove, if_neg (ne_of_mem_of_not_mem hp hq)]
  lasting p hp i hi := by rwa [Disk.maybe_remove, if_neg (ne_of_mem_of_not_mem hp hq)]

theorem quiet_syncDir {folder : Folder} : Quiet f d (d.syncDir Place.folder folder) where
  view _ := view_syncDir
  names _ _ := rfl
  lasting p _ i hi := by
    rw [Disk.maybe_syncDir]
    split
    · exact congrArg (fun v => [v]) (List.cons.inj hi).1
    · exact hi

end Disk

/-! ### What an operation knows -/

section Told

variable {f : Format} {blind : Prop} {d d' : StoreDisk} {told other : Told} {path : RecordPath}

theorem Told.Sound.quiet {temp : Option Temp} (h : told.Sound f blind d) (hd : Quiet f d d')
    (htemp : ∀ t, temp = some t → t.Own d') : Told.Sound f blind d' { told with temp := temp } where
  temp := htemp
  seen path value hseen := by
    obtain ⟨hlocked, hview, hvalid⟩ := h.seen path value hseen
    exact ⟨hlocked, fun hblind => (hd.view path).trans (hview hblind), hvalid⟩
  bad := h.bad
  placed place hplace := by
    obtain ⟨hmem, hnames⟩ := h.placed place hplace
    exact ⟨hmem, fun hlocked => hd.names place hmem ▸ hnames hlocked⟩
  lasting place hplace := by
    obtain ⟨hmem, hlasting⟩ := h.lasting place hplace
    exact ⟨hmem, fun hlocked => (hlasting hlocked).imp fun i => hd.lasting place hmem i⟩

/-- Without the lock nothing is known but the own temporary file. -/
theorem Told.Sound.unlocked (h : told.Sound f blind d) (hlocked : told.locked = false)
    (htemp : ∀ temp, told.temp = some temp → temp.Own d') : told.Sound f blind d' where
  temp := htemp
  seen path value hseen := by
    have hcontra := (h.seen path value hseen).1
    rw [hlocked] at hcontra
    cases hcontra
  bad := h.bad
  placed place hplace := ⟨(h.placed place hplace).1, fun hcontra => by rw [hlocked] at hcontra; cases hcontra⟩
  lasting place hplace := ⟨(h.lasting place hplace).1, fun hcontra => by rw [hlocked] at hcontra; cases hcontra⟩

theorem Told.Sound.found {value : Option (Contents path)} (h : told.Sound f blind d)
    (hview : ¬ blind → view f d path = value) (hvalid : ∀ v, value = some v → valid f.validators path v = true) :
    (told.found path value).Sound f blind d := by
  unfold Told.found
  split
  · next hlocked =>
    refine ⟨h.temp, fun path' value' hseen => ?_, h.bad, h.placed, h.lasting⟩
    rcases List.mem_cons.1 hseen with heq | hseen
    · cases heq
      exact ⟨hlocked, hview, hvalid⟩
    · exact h.seen path' value' hseen
  · exact h

theorem Told.Sound.forget (h : told.Sound f blind d) (place : Place) : (told.forget place).Sound f blind d where
  temp := h.temp
  seen path value hseen := h.seen path value (List.mem_filter.1 hseen).1
  bad := h.bad
  placed := h.placed
  lasting p hp := h.lasting p (List.mem_filter.1 hp).1

/-- What is done to one place is done to what was known of it. -/
theorem Told.Sound.changed {place : Place} {placed : Option Place} {temp : Option Temp} {refused : Bool}
    (h : told.Sound f blind d) (hview : ∀ path, .record path ≠ place → view f d' path = view f d path)
    (hmaybe : ∀ p ∈ published, p ≠ place → d'.maybe p = d.maybe p) (htemp : ∀ t, temp = some t → t.Own d')
    (hplaced : ∀ p, placed = some p → p ∈ published ∧ d'.names p ≠ none) :
    Told.Sound f blind d' { told.forget place with temp := temp, placed := placed, refused := refused } where
  temp := htemp
  seen path value hseen := by
    obtain ⟨hseen, hne⟩ := List.mem_filter.1 hseen
    obtain ⟨hlocked, hbefore, hvalid⟩ := h.seen path value hseen
    exact ⟨hlocked, fun hblind => (hview path (of_decide_eq_true hne)).trans (hbefore hblind), hvalid⟩
  bad := h.bad
  placed p hp := ⟨(hplaced p hp).1, fun _ => (hplaced p hp).2⟩
  lasting p hp := by
    obtain ⟨hp, hne⟩ := List.mem_filter.1 hp
    obtain ⟨hmem, hlasting⟩ := h.lasting p hp
    exact ⟨hmem, fun hlocked => (hmaybe p hmem (of_decide_eq_true hne)).symm ▸ hlasting hlocked⟩

variable {op : Op} {src dst : Place} {content : Bytes}

/-- A file that is written and synced may be published. -/
theorem Ready.whole (hready : Ready told src content) (h : told.Sound f blind d) (hd : d.Whole published (Good f))
    (hgood : Good f dst content) : (d.rename src dst).Whole published (Good f) := by
  obtain ⟨temp, htemp, rfl, hsynced, rfl⟩ := hready
  have hown := h.temp temp htemp
  refine hd.rename fun _ i hi => ?_
  obtain rfl := hown.names i hi
  exact ⟨hown.fresh, hown.synced hsynced, hown.content.symm ▸ hgood⟩

/-- What a rename is allowed from. -/
theorem allowsRename_cases (h : told.Sound f blind d) (hop : op.Bounded) (hc : AllowsRename f op told src dst) :
    told.locked = true ∧ dst ∈ published ∧ ∃ content, Ready told src content ∧ Good f dst content := by
  cases dst with
  | blob digest =>
    obtain ⟨hlocked, content, hready, hdigest⟩ := hc
    exact ⟨hlocked, blob_mem_published digest, content, hready, hdigest⟩
  | record path =>
    obtain ⟨hlocked, old, new, hready, hseen, hchange⟩ := hc
    have hvalid := hchange.valid hop (h.seen path old hseen).2.2
    exact ⟨hlocked, record_mem_published path, _, hready, new, f.decode_encode path new hvalid, hvalid⟩
  | quarantined n =>
    obtain ⟨path, hbad, -⟩ := hc
    rw [h.bad] at hbad
    cases hbad
  | temp folder n => cases hc

theorem Ready.place (hready : Ready told src content) (h : told.Sound f blind d) : ∃ folder n, src = .temp folder n := by
  obtain ⟨temp, htemp, rfl, -⟩ := hready
  exact (h.temp temp htemp).place

/-- **What a call does, its operation knows**, and blobs and records stay
good. -/
theorem Told.Sound.acts (h : told.Sound f blind d) (hd : d.Whole published (Good f)) (hop : op.Bounded) {c : Call}
    {answer : Answer c} (hc : Allows f op told c) (hdoes : Does blind d c answer d') :
    (told.after f c answer).Sound f blind d' ∧ d'.Whole published (Good f) := by
  cases hdoes with
  | aside _ haside =>
    have hsame : told.after f c answer = told := Told.after_plain (Call.plain_of_aside haside) answer
    exact ⟨hsame.symm ▸ h, hd⟩
  | @looked place =>
    refine ⟨?_, hd⟩
    cases place with
    | record path =>
      cases hnames : d.names (.record path) with
      | some i => exact h
      | none => exact h.found (fun _ => by rw [view, hnames]; rfl) fun v hv => by cases hv
    | _ => exact h
  | @overlooked place hblind =>
    refine ⟨?_, hd⟩
    cases place with
    | record path => exact h.found (fun hsees => absurd hblind hsees) fun v hv => by cases hv
    | _ => exact h
  | @read place i hi =>
    refine ⟨?_, hd⟩
    cases place with
    | record path =>
      obtain ⟨value, hview, hdecode, hvalid⟩ := view_of_names hd hi
      have hfound : (told.found path (some value)).Sound f blind d :=
        h.found (fun _ => hview) fun v hv => Option.some.inj hv ▸ hvalid
      simpa only [Told.after, Told.reads, hdecode, hvalid, if_true] using hfound
    | _ => exact h
  | @unread place e => cases place <;> exact ⟨h, hd⟩
  | @create place hplace =>
    obtain ⟨folder, n, rfl, hn⟩ := hc
    have hq := temp_not_mem_published folder n
    have hquiet : Quiet f d (d.create (.temp folder n) []) := quiet_create hd hq
    exact ⟨h.quiet hquiet fun temp htemp => Option.some.inj htemp ▸ Temp.own_created hd folder n, hd.create hq⟩
  | @created place e hplace =>
    obtain ⟨folder, n, rfl, hn⟩ := hc
    have hq := temp_not_mem_published folder n
    exact ⟨h.quiet (quiet_create hd hq) (fun t ht => by cases ht), hd.create hq⟩
  | uncreated e => exact ⟨h.quiet (.refl d) (fun t ht => by cases ht), hd⟩
  | @write file bytes =>
    obtain ⟨temp, htemp, rfl⟩ := hc
    have hown := h.temp temp htemp
    refine ⟨h.quiet (quiet_write hown.apart) fun t ht => ?_, hd.write hown.apart⟩
    simp only [Except.isOk, Except.toBool, if_true, htemp, Option.map_some, Option.some.injEq] at ht
    exact ht ▸ hown.written bytes
  | unwritten e content =>
    obtain ⟨temp, htemp, rfl⟩ := hc
    have hown := h.temp temp htemp
    exact ⟨h.quiet (quiet_write hown.apart) (fun t ht => by cases ht), hd.write hown.apart⟩
  | @sync file answer =>
    refine ⟨?_, hd.sync⟩
    cases answer with
    | error e => exact h.quiet quiet_sync fun t ht => (h.temp t ht).sync
    | ok =>
      obtain ⟨temp, htemp, rfl⟩ := hc
      have hown := h.temp temp htemp
      refine h.quiet quiet_sync fun t ht => ?_
      simp only [htemp, Option.map_some, Option.some.injEq] at ht
      exact ht ▸ hown.whole
  | unsynced e => exact ⟨h, hd⟩
  | @rename src dst answer hsrc =>
    obtain ⟨hlocked, hdst, content, hready, hgood⟩ := allowsRename_cases h hop hc
    obtain ⟨folder, n, rfl⟩ := hready.place h
    refine ⟨(h.forget _).changed (fun path hne => view_rename (by simp) hne) (fun p hp hne => ?_)
      (fun t ht => by cases ht) fun p hp => ?_, hready.whole h hd hgood⟩
    · rw [Disk.maybe_rename (ne_of_mem_of_not_mem hp (temp_not_mem_published folder n)), if_neg hne]
    · cases hanswer : answer.isOk with
      | false => simp [hanswer] at hp
      | true =>
        simp only [hanswer, if_true, Option.some.injEq] at hp
        subst hp
        rw [Disk.names_rename, if_neg (ne_of_mem_of_not_mem hdst (temp_not_mem_published folder n)), if_pos rfl]
        exact ⟨hdst, hsrc⟩
  | @unrenamed src dst e =>
    exact ⟨(h.forget _).changed (fun _ _ => rfl) (fun _ _ _ => rfl) (fun t ht => by cases ht)
      (fun p hp => by cases hp), hd⟩
  | @remove place answer =>
    refine ⟨h.changed (fun path hne => view_remove hne) (fun p hp hne => ?_) (fun t ht => (h.temp t ht).remove)
      fun p hp => ?_, hd.remove⟩
    · rw [Disk.maybe_remove, if_neg hne]
    · cases hp
  | @unremoved place e =>
    exact ⟨h.changed (fun _ _ => rfl) (fun _ _ _ => rfl) h.temp (fun p hp => by cases hp), hd⟩
  | @syncDir folder answer =>
    have hquiet : Quiet f d (d.syncDir Place.folder folder) := quiet_syncDir
    have hsynced := h.quiet hquiet fun t ht => (h.temp t ht).syncDir
    refine ⟨?_, hd.syncDir _ _⟩
    cases answer with
    | error e => exact hsynced
    | ok =>
      refine ⟨hsynced.temp, hsynced.seen, h.bad, hsynced.placed, fun p hp => ?_⟩
      rcases List.mem_append.1 hp with hp | hp
      · obtain ⟨hplaced, hfolder⟩ := Option.filter_eq_some_iff.1 (Option.mem_toList.1 hp)
        obtain ⟨hmem, hnames⟩ := h.placed p hplaced
        refine ⟨hmem, fun hlocked => ?_⟩
        obtain ⟨i, hi⟩ := Option.ne_none_iff_exists'.1 (hnames hlocked)
        exact ⟨i, by rw [Disk.maybe_syncDir, if_pos (of_decide_eq_true hfolder), hi]⟩
      · exact hsynced.lasting p hp
  | dirUnsynced e => exact ⟨h, hd⟩

/-- The own temporary file is one it had, or a new one under a number it had. -/
structure Told.From (d : StoreDisk) (told told' : Told) : Prop where
  locked : told'.locked = told.locked
  number : told'.number = told.number
  temp : ∀ t, told'.temp = some t → (∃ t₀, told.temp = some t₀ ∧ t.file = t₀.file ∧ t.place = t₀.place) ∨
    t.file = d.fresh ∧ ∃ folder n, t.place = .temp folder n ∧ told.number = some n

theorem Told.From.of_same {told' : Told} (hlocked : told'.locked = told.locked) (hnumber : told'.number = told.number)
    (htemp : told'.temp = told.temp ∨ told'.temp = none) : told.From d told' := by
  refine ⟨hlocked, hnumber, fun t ht => ?_⟩
  rcases htemp with hsame | hnone
  · exact .inl ⟨t, hsame ▸ ht, rfl, rfl⟩
  · rw [hnone] at ht
    cases ht

theorem Told.from_found (value : Option (Contents path)) : told.From d (told.found path value) := by
  obtain ⟨seen, hseen⟩ := found_eq told path value
  rw [hseen]
  exact .of_same rfl rfl (.inl rfl)

theorem Told.from_after {c : Call} {answer : Answer c} (hc : Allows f op told c) (hdoes : Does blind d c answer d') :
    told.From d (told.after f c answer) := by
  have hsame : told.From d told := .of_same rfl rfl (.inl rfl)
  cases hdoes with
  | aside _ haside =>
    have hafter : told.after f c answer = told := Told.after_plain (Call.plain_of_aside haside) answer
    exact hafter.symm ▸ hsame
  | @looked place =>
    cases place with
    | record path =>
      cases d.names (.record path) with
      | some i => exact hsame
      | none => exact from_found none
    | _ => exact hsame
  | @overlooked place hblind =>
    cases place with
    | record path => exact from_found none
    | _ => exact hsame
  | @read place i hi =>
    cases place with
    | record path =>
      obtain ⟨seen, bad, hreads⟩ := reads_eq f told path (d.files i).content
      show told.From d (told.reads f path (d.files i).content)
      rw [hreads]
      exact .of_same rfl rfl (.inl rfl)
    | _ => exact hsame
  | @unread place e => cases place <;> exact hsame
  | @create place hplace =>
    obtain ⟨folder, n, rfl, hn⟩ := hc
    exact ⟨rfl, rfl, fun t ht => .inr (Option.some.inj ht ▸ ⟨rfl, folder, n, rfl, hn⟩)⟩
  | created e hplace => exact .of_same rfl rfl (.inr rfl)
  | uncreated e => exact .of_same rfl rfl (.inr rfl)
  | write =>
    refine ⟨rfl, rfl, fun t ht => .inl ?_⟩
    obtain ⟨t₀, ht₀, rfl⟩ := Option.map_eq_some_iff.1 ht
    exact ⟨t₀, ht₀, rfl, rfl⟩
  | unwritten e content => exact .of_same rfl rfl (.inr rfl)
  | sync answer =>
    cases answer with
    | error e => exact hsame
    | ok =>
      refine ⟨rfl, rfl, fun t ht => .inl ?_⟩
      obtain ⟨t₀, ht₀, rfl⟩ := Option.map_eq_some_iff.1 ht
      exact ⟨t₀, ht₀, rfl, rfl⟩
  | unsynced e => exact hsame
  | rename answer hsrc => exact .of_same rfl rfl (.inr rfl)
  | unrenamed e => exact .of_same rfl rfl (.inr rfl)
  | remove answer => exact .of_same rfl rfl (.inl rfl)
  | unremoved e => exact .of_same rfl rfl (.inl rfl)
  | syncDir answer => cases answer <;> exact .of_same rfl rfl (.inl rfl)
  | dirUnsynced e => exact hsame

/-- The others' files are spared, and what they know. -/
theorem Told.Sound.spared (hother : other.Sound f blind d) (h : told.Sound f blind d) (hd : d.Whole published (Good f))
    (hop : op.Bounded) (hexclusive : told.locked = true → other.locked = false) (hapart : told.Apart other) {c : Call}
    {answer : Answer c} (hc : Allows f op told c) (hdoes : Does blind d c answer d') : other.Sound f blind d' := by
  have hcreate : ∀ folder n, told.number = some n → other.Sound f blind (d.create (.temp folder n) []) := by
    intro folder n hn
    have hq := temp_not_mem_published folder n
    refine hother.quiet (quiet_create hd hq) fun t ht => (hother.temp t ht).create hq fun hsame => ?_
    exact hapart.numbers n (.inl hn) (.inr ⟨t, folder, ht, hsame⟩)
  cases hdoes with
  | create hplace =>
    obtain ⟨folder, n, rfl, hn⟩ := hc
    exact hcreate folder n hn
  | created e hplace =>
    obtain ⟨folder, n, rfl, hn⟩ := hc
    exact hcreate folder n hn
  | write =>
    obtain ⟨temp, htemp, rfl⟩ := hc
    refine hother.quiet (quiet_write (h.temp temp htemp).apart) fun t ht => (hother.temp t ht).write ?_
    exact (hapart.files temp t htemp ht).symm
  | unwritten e content =>
    obtain ⟨temp, htemp, rfl⟩ := hc
    refine hother.quiet (quiet_write (h.temp temp htemp).apart) fun t ht => (hother.temp t ht).write ?_
    exact (hapart.files temp t htemp ht).symm
  | sync answer => exact hother.quiet quiet_sync fun t ht => (hother.temp t ht).sync
  | rename answer hsrc =>
    obtain ⟨hlocked, hdst, content, hready, -⟩ := allowsRename_cases h hop hc
    obtain ⟨temp, htemp, rfl, -⟩ := hready
    refine hother.unlocked (hexclusive hlocked) fun t ht => (hother.temp t ht).rename hdst fun hsame => ?_
    exact hapart.files temp t htemp ht ((h.temp temp htemp).names _ hsame).symm
  | @remove place answer =>
    have htemp : ∀ t, other.temp = some t → t.Own (d.remove place) := fun t ht => (hother.temp t ht).remove
    cases place with
    | temp folder n => exact hother.quiet (quiet_remove (temp_not_mem_published folder n)) htemp
    | blob digest => exact hother.unlocked (hexclusive hc) htemp
    | record path => exact hother.unlocked (hexclusive hc.1) htemp
    | quarantined n => cases hc
  | syncDir answer => exact hother.quiet quiet_syncDir fun t ht => (hother.temp t ht).syncDir
  | _ => exact hother

end Told

/-! ## The invariant -/

structure Client.Sound (f : Format) (blind : Prop) (s : Runs) (id : Text) (c : Client) : Prop where
  bounded : c.op.Bounded
  obeys : c.program.Obeys (monitor f c.op) (Ended c.op) c.told
  locked : c.told.locked = true ↔ s.lock = some id
  told : c.told.Sound f blind s.disk
  owns : ∀ n, c.told.Owns n → n < s.numbers

structure Runs.Inv (f : Format) (blind : Prop) (s : Runs) : Prop where
  whole : s.disk.Whole published (Good f)
  clients : ∀ id c, s.clients id = some c → c.Sound f blind s id
  held : ∀ id, s.lock = some id → ∃ c, s.clients id = some c
  apart : ∀ id id' c c', id ≠ id' → s.clients id = some c → s.clients id' = some c' → c.told.Apart c'.told

namespace Told

variable {d : StoreDisk} {told told' other : Told} {n : Nat}

theorem From.owns (h : told.From d told') (hn : told'.Owns n) : told.Owns n := by
  rcases hn with hn | ⟨temp, folder, htemp, hplace⟩
  · exact .inl (h.number ▸ hn)
  · rcases h.temp temp htemp with ⟨before, hbefore, -, hsame⟩ | ⟨-, folder', n', hplace', hn'⟩
    · exact .inr ⟨before, folder, hbefore, hsame ▸ hplace⟩
    · rw [hplace'] at hplace
      cases hplace
      exact .inl hn'

theorem Apart.symm (h : told.Apart other) : other.Apart told where
  numbers n hother htold := h.numbers n htold hother
  files temp temp' htemp htemp' := (h.files temp' temp htemp' htemp).symm

/-- What is new is apart from what there was. -/
theorem From.apart (h : told.From d told') (hapart : told.Apart other)
    (hother : ∀ temp, other.temp = some temp → temp.file < d.fresh) : told'.Apart other where
  numbers n hn := hapart.numbers n (h.owns hn)
  files temp temp' htemp htemp' := by
    rcases h.temp temp htemp with ⟨before, hbefore, hfile, -⟩ | ⟨hfile, -⟩
    · exact hfile ▸ hapart.files before temp' hbefore htemp'
    · exact hfile ▸ (hother temp' htemp').ne'

theorem init_apart : init.Apart other where
  numbers n hn := by
    rcases hn with hn | ⟨temp, folder, htemp, -⟩
    · cases hn
    · cases htemp
  files temp temp' htemp := by cases htemp

theorem init_sound (f : Format) (blind : Prop) (d : StoreDisk) : init.Sound f blind d where
  temp temp htemp := by cases htemp
  seen path value hseen := by cases hseen
  bad := rfl
  placed place hplace := by cases hplace
  lasting place hplace := by cases hplace

end Told

namespace Runs

variable {f : Format} {blind : Prop} {s t : Runs} {id : Text}

theorem clients_put (id' : Text) (client : Option Client) :
    (s.put id client).clients id' = if id' = id then client else s.clients id' := Function.update_apply ..

/-- One client goes on, and the others are as they were. -/
theorem Inv.put {d : StoreDisk} {lock : Option Text} {numbers : Nat} {c : Client} (h : s.Inv f blind)
    (hwhole : d.Whole published (Good f)) (hc : c.Sound f blind ⟨d, lock, numbers, s.clients⟩ id)
    (hothers : ∀ id' c', id' ≠ id → s.clients id' = some c' →
      c'.Sound f blind ⟨d, lock, numbers, s.clients⟩ id' ∧ c.told.Apart c'.told)
    (hheld : ∀ id', lock = some id' → id' = id ∨ s.lock = some id') :
    (({ s with disk := d, lock := lock, numbers := numbers } : Runs).put id (some c)).Inv f blind where
  whole := hwhole
  clients id' c' hc' := by
    rw [clients_put] at hc'
    split at hc'
    · next hsame =>
      obtain rfl := Option.some.inj hc'
      exact ⟨hc.bounded, hc.obeys, hsame ▸ hc.locked, hc.told, hc.owns⟩
    · next hne =>
      obtain ⟨hbounded, hobeys, hlocked, htold, howns⟩ := (hothers id' c' hne hc').1
      exact ⟨hbounded, hobeys, hlocked, htold, howns⟩
  held id' hlock := by
    rw [clients_put]
    split
    · exact ⟨c, rfl⟩
    · next hne => exact h.held id' ((hheld id' hlock).resolve_left hne)
  apart id₁ id₂ c₁ c₂ hne h₁ h₂ := by
    rw [clients_put] at h₁ h₂
    split at h₁
    · next hid₁ =>
      obtain rfl := Option.some.inj h₁
      rw [if_neg fun hid₂ => hne (hid₁.trans hid₂.symm)] at h₂
      exact (hothers id₂ c₂ (fun hid₂ => hne (hid₁.trans hid₂.symm)) h₂).2
    · next hid₁ =>
      split at h₂
      · obtain rfl := Option.some.inj h₂
        exact (hothers id₁ c₁ hid₁ h₁).2.symm
      · exact h.apart id₁ id₂ c₁ c₂ hne h₁ h₂

/-- Two do not hold the lock. -/
theorem Inv.exclusive (h : s.Inv f blind) {id' : Text} {c c' : Client} (hne : id' ≠ id) (hc : s.clients id = some c)
    (hc' : s.clients id' = some c') (hlocked : c.told.locked = true) : c'.told.locked = false := by
  have hlock := (h.clients id c hc).locked.1 hlocked
  refine Bool.eq_false_iff.2 fun hlocked' => hne ?_
  have hlock' := (h.clients id' c' hc').locked.1 hlocked'
  rw [hlock] at hlock'
  exact (Option.some.inj hlock').symm

theorem Inv.start (h : s.Inv f blind) {op : Op} (hid : s.clients id = none) (hop : op.Bounded) :
    (s.put id (some ⟨op, .init, (op.program f).run⟩)).Inv f blind := by
  have hfree : s.lock ≠ some id := fun hlock => by
    obtain ⟨c, hc⟩ := h.held id hlock
    rw [hid] at hc
    cases hc
  refine h.put h.whole ⟨hop, op.program_obeys f, ?_, Told.init_sound f blind s.disk, fun n hn => ?_⟩
    (fun id' c' _ hc' => ⟨h.clients id' c' hc', Told.init_apart⟩) fun id' hlock => .inr hlock
  · exact iff_of_false Bool.false_ne_true hfree
  · rcases hn with hn | ⟨temp, folder, htemp, -⟩
    · cases hn
    · cases htemp

variable {op : Op} {told : Told} {c : Call} {next : Answer c → Asking (Except Failure Bool)}

theorem Inv.act (h : s.Inv f blind) {answer : Answer c} {d : StoreDisk}
    (hc : s.clients id = some ⟨op, told, .call c next⟩) (hdoes : Does blind s.disk c answer d) :
    ({ s with disk := d }.goes f id op told next answer).Inv f blind := by
  obtain ⟨hop, hobeys, hlocked, htold, howns⟩ := h.clients id _ hc
  obtain ⟨hallows, hnext⟩ := hobeys
  obtain ⟨hsound, hwhole⟩ := htold.acts h.whole hop hallows hdoes
  have hfrom := Told.from_after hallows hdoes
  refine h.put hwhole ⟨hop, hnext answer, ?_, hsound, fun n hn => howns n (hfrom.owns hn)⟩
    (fun id' c' hne hc' => ?_) fun id' hlock => .inr hlock
  · rw [hfrom.locked]
    exact hlocked
  · obtain ⟨hop', hobeys', hlocked', htold', howns'⟩ := h.clients id' c' hc'
    have hapart := h.apart id id' _ c' hne.symm hc hc'
    have hspared := htold'.spared htold h.whole hop (h.exclusive hne hc hc') hapart hallows hdoes
    exact ⟨⟨hop', hobeys', hlocked', hspared, howns'⟩,
      hfrom.apart hapart fun temp htemp => (htold'.temp temp htemp).fresh⟩

theorem Inv.number (h : s.Inv f blind) {n : Nat} {next : Answer .tempNumber → Asking (Except Failure Bool)}
    (hc : s.clients id = some ⟨op, told, .call .tempNumber next⟩) (hn : s.numbers ≤ n) :
    ({ s with numbers := n + 1 }.goes f id op told next n).Inv f blind := by
  obtain ⟨hop, hobeys, hlocked, htold, howns⟩ := h.clients id _ hc
  have howned : ∀ m, ({ told with number := some n } : Told).Owns m → m = n ∨ told.Owns m := by
    intro m hm
    rcases hm with hm | htemp
    · exact .inl (Option.some.inj hm).symm
    · exact .inr (.inr htemp)
  refine h.put h.whole ⟨hop, hobeys.2 n, hlocked, ⟨htold.temp, htold.seen, htold.bad, htold.placed, htold.lasting⟩,
    fun m hm => ?_⟩ (fun id' c' hne hc' => ?_) fun id' hlock => .inr hlock
  · show m < n + 1
    rcases howned m hm with rfl | hm
    · omega
    · have hlt := howns m hm
      omega
  · obtain ⟨hop', hobeys', hlocked', htold', howns'⟩ := h.clients id' c' hc'
    have hapart := h.apart id id' _ c' hne.symm hc hc'
    have hlt : ∀ m, c'.told.Owns m → m < n := fun m hm => (howns' m hm).trans_le hn
    refine ⟨⟨hop', hobeys', hlocked', htold', fun m hm => (hlt m hm).trans (Nat.lt_succ_self n)⟩,
      ⟨fun m hm hm' => ?_, hapart.files⟩⟩
    rcases howned m hm with rfl | hm
    · exact absurd (hlt m hm') (lt_irrefl m)
    · exact hapart.numbers m hm hm'

theorem Inv.lock (h : s.Inv f blind) {next : Answer .lock → Asking (Except Failure Bool)}
    (hc : s.clients id = some ⟨op, told, .call .lock next⟩) (hfree : s.lock = none) :
    ({ s with lock := some id }.goes f id op told next (.ok ())).Inv f blind := by
  obtain ⟨hop, hobeys, hlocked, htold, howns⟩ := h.clients id _ hc
  refine h.put h.whole ⟨hop, hobeys.2 (.ok ()), iff_of_true rfl rfl, ?_, howns⟩ (fun id' c' hne hc' => ?_)
    fun id' hlock => .inl (Option.some.inj hlock).symm
  · exact ⟨htold.temp, fun _ _ hseen => absurd hseen List.not_mem_nil, htold.bad, fun _ hplaced => (by cases hplaced),
      fun _ hlasting => absurd hlasting List.not_mem_nil⟩
  · obtain ⟨hop', hobeys', hlocked', htold', howns'⟩ := h.clients id' c' hc'
    have hapart := h.apart id id' _ c' hne.symm hc hc'
    refine ⟨⟨hop', hobeys', ?_, htold', howns'⟩, ⟨hapart.numbers, hapart.files⟩⟩
    refine iff_of_false (fun hheld => ?_) fun hsame => hne (Option.some.inj hsame).symm
    have hcontra := hlocked'.1 hheld
    rw [hfree] at hcontra
    cases hcontra

theorem Inv.unlock (h : s.Inv f blind) {next : Answer .unlock → Asking (Except Failure Bool)}
    (answer : Except IoError Unit) (hc : s.clients id = some ⟨op, told, .call .unlock next⟩) :
    ({ s with lock := none }.goes f id op told next answer).Inv f blind := by
  obtain ⟨hop, hobeys, hlocked, htold, howns⟩ := h.clients id _ hc
  have hheld : told.locked = true := hobeys.1
  refine h.put h.whole ⟨hop, hobeys.2 answer, ?_, ?_, howns⟩ (fun id' c' hne hc' => ?_) fun id' hlock => by cases hlock
  · exact iff_of_false Bool.false_ne_true (Option.some_ne_none id).symm
  · refine ⟨htold.temp, fun _ _ hseen => absurd hseen List.not_mem_nil, htold.bad, fun p hp => ?_, fun p hp => ?_⟩
    · exact ⟨(htold.placed p hp).1, fun hfalse => by cases hfalse⟩
    · exact ⟨(htold.lasting p hp).1, fun hfalse => by cases hfalse⟩
  · obtain ⟨hop', hobeys', hlocked', htold', howns'⟩ := h.clients id' c' hc'
    have hapart := h.apart id id' _ c' hne.symm hc hc'
    refine ⟨⟨hop', hobeys', ?_, htold', howns'⟩, ⟨hapart.numbers, hapart.files⟩⟩
    have hfree := h.exclusive hne hc hc' hheld
    rw [hfree]
    exact iff_of_false Bool.false_ne_true (Option.some_ne_none id').symm

theorem Inv.leave (h : s.Inv f blind) (id : Text) :
    ({ s with lock := if s.lock = some id then none else s.lock }.put id none).Inv f blind where
  whole := h.whole
  clients id' c' hc' := by
    rw [clients_put] at hc'
    split at hc'
    · cases hc'
    · next hne =>
      obtain ⟨hop', hobeys', hlocked', htold', howns'⟩ := h.clients id' c' hc'
      refine ⟨hop', hobeys', hlocked'.trans ?_, htold', howns'⟩
      show _ ↔ (if s.lock = some id then none else s.lock) = some id'
      split
      · next hlock =>
        rw [hlock]
        exact iff_of_false (fun hsame => hne (Option.some.inj hsame).symm) fun hfalse => by cases hfalse
      · exact Iff.rfl
  held id' hlock := by
    have hlock' : (if s.lock = some id then none else s.lock) = some id' := hlock
    split at hlock'
    · cases hlock'
    · next hne =>
      have hid : id' ≠ id := fun hsame => hne (hsame ▸ hlock')
      rw [clients_put, if_neg hid]
      exact h.held id' hlock'
  apart id₁ id₂ c₁ c₂ hne h₁ h₂ := by
    rw [clients_put] at h₁ h₂
    split at h₁
    · cases h₁
    · split at h₂
      · cases h₂
      · exact h.apart id₁ id₂ c₁ c₂ hne h₁ h₂

theorem Inv.step (h : s.Inv f blind) {event : Event} (hs : Step f blind s event t) : t.Inv f blind := by
  cases hs with
  | start op hid hop => exact h.start hid hop
  | act hc hdoes => exact h.act hc hdoes
  | number n hc hn => exact h.number hc hn
  | lock hc hfree => exact h.lock hc hfree
  | @unlockable id op told next e hc =>
    obtain ⟨hop, hobeys, hlocked, htold, howns⟩ := h.clients id _ hc
    refine h.put h.whole ⟨hop, hobeys.2 (.error e), hlocked, htold, howns⟩ (fun id' c' hne hc' => ?_)
      fun id' hlock => .inr hlock
    have hapart := h.apart id id' _ c' hne.symm hc hc'
    exact ⟨h.clients id' c' hc', hapart⟩
  | unlock answer hc => exact h.unlock answer hc
  | leave => exact h.leave _
  | powerFailure lost hfails =>
    exact ⟨h.whole.fails hfails, fun _ _ hc => (by cases hc), fun _ hlock => (by cases hlock),
      fun _ _ _ _ _ hc => (by cases hc)⟩

end Runs

/-! ## What every run keeps -/

/-- What is under a published name, or may be after a power failure. -/
structure Runs.Safe (f : Format) (s : Runs) : Prop where
  blobs : ∀ digest i, some i ∈ s.disk.maybe (.blob digest) →
    (s.disk.files i).synced = true ∧ f.digest (s.disk.files i).content = digest
  records : ∀ path i, some i ∈ s.disk.maybe (.record path) → (s.disk.files i).synced = true ∧
    ∃ value, f.decode path (s.disk.files i).content = .ok value ∧ valid f.validators path value = true
  /-- No record is quarantined. -/
  unquarantined : ∀ id op told path n next,
    s.clients id ≠ some ⟨op, told, .call (.rename (.record path) (.quarantined n)) next⟩
  /-- What was put and synced is there after a power failure, as long as its
  directory is. -/
  lasting : ∀ id op told program place lost d, s.clients id = some ⟨op, told, program⟩ → s.lock = some id →
    place ∈ told.lasting → Disk.Fails Place.folder lost s.disk d → place.folder ∉ lost →
    ∃ i, d.names place = some i ∧ s.disk.names place = some i ∧ d.files i = s.disk.files i
  /-- An operation that answers that it put something did that. -/
  answered : ∀ id op told place, s.clients id = some ⟨op, told, .done (.ok true)⟩ → op.puts = some place →
    Put told place

namespace Runs

variable {f : Format} {blind : Prop} {s t : Runs} {id : Text} {d : StoreDisk} {path : RecordPath}

/-- Nothing is under way. -/
def init (d : StoreDisk) (numbers : Nat) : Runs := ⟨d, none, numbers, fun _ => none⟩

theorem init_inv (hd : d.Whole published (Good f)) (numbers : Nat) : (init d numbers).Inv f blind where
  whole := hd
  clients id c hc := by cases hc
  held id hlock := by cases hlock
  apart id id' c c' _ hc := by cases hc

theorem Inv.safe (h : s.Inv f blind) : s.Safe f where
  blobs digest i hi := (h.whole _ (blob_mem_published digest) i hi).2
  records path i hi := (h.whole _ (record_mem_published path) i hi).2
  unquarantined id op told path n next hc := by
    obtain ⟨-, hobeys, -, htold, -⟩ := h.clients id _ hc
    obtain ⟨path', hbad, -⟩ := hobeys.1
    rw [htold.bad] at hbad
    cases hbad
  lasting id op told program place lost d hc hlock hplace hfails hkept := by
    obtain ⟨-, -, hlocked, htold, -⟩ := h.clients id _ hc
    obtain ⟨hmem, hlasting⟩ := htold.lasting place hplace
    obtain ⟨i, hi⟩ := hlasting (hlocked.2 hlock)
    have hnames : s.disk.names place = some i := List.mem_singleton.1 (hi ▸ Disk.names_mem_maybe s.disk place)
    have hafter : d.names place = some i := List.mem_singleton.1 (hi ▸ hfails.names place hkept)
    have hmaybe : some i ∈ s.disk.maybe place := hnames ▸ Disk.names_mem_maybe s.disk place
    exact ⟨i, hafter, hnames, hfails.files i (h.whole place hmem i hmaybe).2.1⟩
  answered id op told place hc hputs := by
    obtain ⟨-, hobeys, -⟩ := h.clients id _ hc
    exact hobeys.put rfl place hputs

theorem reachable_inv {numbers : Nat} (hd : d.Whole published (Good f))
    (hs : Transition.Reachable (Step f blind) (init d numbers) s) : s.Inv f blind :=
  hs.invariant (Inv f blind) (init_inv hd numbers) fun _ _ _ h hstep => h.step hstep

/-- **Blobs and records are whole**, whatever fails, whoever ends, and after
every power failure. -/
theorem reachable_store_safe {numbers : Nat} (hd : d.Whole published (Good f))
    (hs : Transition.Reachable (Step f blind) (init d numbers) s) : s.Safe f := (reachable_inv hd hs).safe

/-! ## Changes -/

/-- A record that is put is what it is put as. -/
theorem view_rename_self {told : Told} {src : Place} {new : Contents path} (htold : told.Sound f blind d)
    (hsrc : d.names src ≠ none) (hready : Ready told src (f.encode path new))
    (hvalid : valid f.validators path new = true) : view f (d.rename src (.record path)) path = some new := by
  obtain ⟨folder, n, rfl⟩ := hready.place htold
  obtain ⟨temp, htemp, hplace, -, hcontent⟩ := hready
  obtain ⟨i, hi⟩ := Option.ne_none_iff_exists'.1 hsrc
  have hown := htold.temp temp htemp
  obtain rfl := hown.names i (hplace ▸ hi)
  rw [view, Disk.names_rename, if_neg (by simp), if_pos rfl, hi, Option.bind_some, Disk.files_rename, hown.content,
    hcontent, f.decode_encode path new hvalid]
  rfl

/-- What a call makes of a record, where a look at a file does not fail. -/
theorem changes_of_does {op : Op} {told : Told} {c : Call} {answer : Answer c} {d' : StoreDisk}
    (hop : op.Bounded) (hd : d.Whole published (Good f)) (htold : told.Sound f False d) (hc : Allows f op told c)
    (hdoes : Does False d c answer d') (path : RecordPath) :
    view f d' path = view f d path ∨ told.locked = true ∧ op.Changes f path (view f d path) (view f d' path) := by
  cases hdoes with
  | create hplace =>
    obtain ⟨folder, n, rfl, hn⟩ := hc
    exact .inl (view_create hd (temp_not_mem_published folder n))
  | created e hplace =>
    obtain ⟨folder, n, rfl, hn⟩ := hc
    exact .inl (view_create hd (temp_not_mem_published folder n))
  | write =>
    obtain ⟨temp, htemp, rfl⟩ := hc
    exact .inl (view_write (htold.temp temp htemp).apart)
  | unwritten e content =>
    obtain ⟨temp, htemp, rfl⟩ := hc
    exact .inl (view_write (htold.temp temp htemp).apart)
  | sync answer => exact .inl view_sync
  | @rename src dst answer hsrc =>
    obtain ⟨-, -, content, hready, -⟩ := allowsRename_cases htold hop hc
    obtain ⟨folder, n, rfl⟩ := hready.place htold
    by_cases hpath : Place.record path = dst
    · subst hpath
      obtain ⟨hlocked, old, new, hready, hseen, hchange⟩ := hc
      obtain ⟨-, hview, hvalid⟩ := htold.seen path old hseen
      rw [view_rename_self htold hsrc hready (hchange.valid hop hvalid), hview not_false]
      exact .inr ⟨hlocked, hchange⟩
    · exact .inl (view_rename (by simp) hpath)
  | @remove place answer =>
    by_cases hpath : Place.record path = place
    · subst hpath
      obtain ⟨hlocked, hremoves⟩ := hc
      have hgone : view f (d.remove (.record path)) path = none := by
        rw [view, Disk.names_remove, if_pos rfl]
        rfl
      cases hview : view f d path with
      | none => exact .inl hgone
      | some old =>
        rw [hgone]
        exact .inr ⟨hlocked, hremoves old fun value hseen => ((htold.seen path value hseen).2.1 not_false).symm.trans hview⟩
    · exact .inl (view_remove hpath)
  | _ => exact .inl rfl

/-- **No update is lost**: a step other than a power failure leaves a record,
or is the operation of who holds the lock, on the record as it is then. -/
theorem reachable_changes {numbers : Nat} {event : Event} (hd : d.Whole published (Good f))
    (hs : Transition.Reachable (Step f False) (init d numbers) s) (hstep : Step f False s event t)
    (hevent : event ≠ .powerFailure) (path : RecordPath) :
    view f t.disk path = view f s.disk path ∨
      ∃ id op told program, event = .act id ∧ s.clients id = some ⟨op, told, program⟩ ∧ s.lock = some id ∧
        op.Changes f path (view f s.disk path) (view f t.disk path) := by
  have h := reachable_inv hd hs
  cases hstep with
  | @act id op told c next answer d hc hdoes =>
    obtain ⟨hop, hobeys, hlocked, htold, -⟩ := h.clients id _ hc
    rcases changes_of_does hop h.whole htold hobeys.1 hdoes path with hsame | ⟨hheld, hchange⟩
    · exact .inl hsame
    · exact .inr ⟨id, op, told, _, rfl, hc, hlocked.1 hheld, hchange⟩
  | powerFailure => exact absurd rfl hevent
  | _ => exact .inl rfl

/-! ## One archive, to its rename -/

instance : Encodable Char := .ofLeftInverse Char.toNat Char.ofNat Char.ofNat_toNat

deriving instance Encodable for FileInput, EnvInput, Artifact, StreamArtifact, ActionCandidate

deriving instance Encodable for PlatformIdentity, DeclaredActionRecord, ArchiveManifest

instance : (path : RecordPath) → Encodable (Contents path)
  | .action _ => inferInstanceAs (Encodable (List ActionCandidate))
  | .declared _ => inferInstanceAs (Encodable DeclaredActionRecord)
  | .archive _ => inferInstanceAs (Encodable ArchiveManifest)

/-- Any value is a number, which has digits. -/
def toBytes {α : Type} [Encodable α] (a : α) : Bytes := (Nat.digits 256 (Encodable.encode a)).map UInt8.ofNat

def ofBytes {α : Type} [Encodable α] (bytes : Bytes) : Option α :=
  Encodable.decode (Nat.ofDigits 256 (bytes.map UInt8.toNat))

theorem ofBytes_toBytes {α : Type} [Encodable α] (a : α) : ofBytes (toBytes a) = some a := by
  let digits := Nat.digits 256 (Encodable.encode a)
  have hdigits : digits.map (UInt8.toNat ∘ UInt8.ofNat) = digits := by
    refine (List.map_congr_left fun d hd => ?_).trans (List.map_id digits)
    exact Nat.mod_eq_of_lt (Nat.digits_lt_base (by decide) hd)
  rw [ofBytes, toBytes, List.map_map, hdigits, Nat.ofDigits_digits, Encodable.encodek]

/-- Of the number that the bytes are, 64 digits. -/
def soloDigest (bytes : Bytes) : Text :=
  (List.range 64).map fun i => Nat.digitChar (Nat.ofDigits 256 (bytes.map UInt8.toNat) / 16 ^ i % 16)

def soloCandidateKey (staticKey : Text) (files hostFiles : List FileInput) (env : List EnvInput) : Text :=
  if h : (utf8 staticKey).length < 2 ^ 64 then compilerActionKey soloDigest ⟨staticKey, h⟩ files hostFiles env else []

def soloFormat : Format where
  digest := soloDigest
  validators := {
    candidate := fun c => decide (validateCandidateManifest soloCandidateKey c = .ok ())
    declared := fun r => decide (validateDeclaredRecord (declaredActionKey soloDigest) r = .ok ())
    archive := fun m => decide (validateArchiveManifest soloDigest m = .ok ()) }
  encode _ value := toBytes value
  decode _ bytes := (ofBytes bytes).elim (.error "expected value at line 1 column 1") .ok
  decode_encode _ value _ := by rw [ofBytes_toBytes, Option.elim_some]

def soloFiles : List Artifact := [⟨"libdep.rlib".toList, List.replicate 64 'b', false⟩]

def soloManifest : ArchiveManifest where
  protocol := PROTOCOL_VERSION
  name := ['n']
  treeDigest := treeDigest soloDigest soloFiles
  createdMs := 1
  producerAction := none
  files := soloFiles

theorem soloManifest_valid : soloFormat.validators.archive soloManifest = true := by decide +kernel

def emptyDisk : StoreDisk := ⟨fun _ => ⟨[], true⟩, 0, fun _ => none, fun _ => []⟩

theorem emptyDisk_whole : emptyDisk.Whole published (Good f) := by
  intro p _ i hi
  cases List.mem_singleton.1 hi

/-- One file operation of a single client. -/
theorem reachable_act {s₀ : Runs} {op : Op} {told : Told} (id : Text) (c : Call)
    {next : Answer c → Asking (Except Failure Bool)} {answer : Answer c}
    (hs : Transition.Reachable (Step f blind) s₀ s) (hc : s.clients id = some ⟨op, told, .call c next⟩)
    (hdoes : Does blind s.disk c answer d) :
    Transition.Reachable (Step f blind) s₀ ({ s with disk := d }.goes f id op told next answer) :=
  hs.tail (.act hc hdoes)

def done : Except IoError Unit := .ok ()

/-- A first file, once it is synced. -/
theorem files_synced (place : Place) (bytes : Bytes) :
    (((emptyDisk.create place []).write 0 (((emptyDisk.create place []).files 0).content ++ bytes)).sync 0).files 0 =
      ⟨bytes, true⟩ := by
  have hempty : ((emptyDisk.create place []).files 0).content = [] := rfl
  rw [Disk.files_sync, if_pos rfl, Disk.files_write, if_pos rfl, hempty, List.nil_append]

/-- The archive is put, as far as its file is synced. -/
theorem exists_synced : ∃ s told next, Transition.Reachable (Step soloFormat False) (init emptyDisk 0) s ∧
    s.clients ['1'] = some ⟨.putArchive soloManifest, told,
      .call (.rename (.temp .archives 0) (.record (.archive ['n']))) next⟩ ∧
    s.disk.names (.temp .archives 0) = some 0 ∧
    s.disk.files 0 = ⟨soloFormat.encode (.archive ['n']) soloManifest, true⟩ ∧
    s.disk.names (.record (.archive ['n'])) = none := by
  have hprogram : (Op.putArchive soloManifest).program soloFormat =
      withMutationLock (putArchiveUnlocked soloFormat soloManifest) := by
    simp only [Op.program, DiskStore.putArchive, soloManifest_valid, if_true]
  have hstart : Step soloFormat False (init emptyDisk 0) (.start ['1']) _ :=
    .start (.putArchive soloManifest) rfl trivial
  have hstarted := Transition.Reachable.refl.tail hstart
  rw [hprogram] at hstarted
  have hopened := reachable_act ['1'] .openLock hstarted rfl (.aside done rfl)
  have hlocked := hopened.tail (a := .lock ['1']) (.lock rfl rfl)
  have hlooked := reachable_act ['1'] (.exists (.record (.archive ['n']))) hlocked rfl .looked
  have hdirs := reachable_act ['1'] (.createDirs .archives) hlooked rfl (.aside done rfl)
  have hnumber := hdirs.tail (a := .number ['1']) (.number 0 rfl le_rfl)
  have hcreated := reachable_act ['1'] (.createNew (.temp .archives 0)) hnumber rfl (.create rfl)
  have hwritten := reachable_act ['1'] (.write 0 (soloFormat.encode (.archive ['n']) soloManifest)) hcreated rfl .write
  have hsynced := reachable_act ['1'] (.sync 0) hwritten rfl (.sync done)
  exact ⟨_, _, _, hsynced, rfl, rfl, files_synced _ _, rfl⟩

/-- Its rename is what makes the record. -/
theorem exists_renamed : ∃ s t, Transition.Reachable (Step soloFormat False) (init emptyDisk 0) s ∧
    Step soloFormat False s (.act ['1']) t ∧ view soloFormat s.disk (.archive ['n']) = none ∧
    view soloFormat t.disk (.archive ['n']) = some soloManifest := by
  obtain ⟨s, told, next, hs, hc, hsrc, hfile, hdst⟩ := exists_synced
  let d := s.disk.rename (.temp .archives 0) (.record (.archive ['n']))
  have hdoes : Does False s.disk (.rename (.temp .archives 0) (.record (.archive ['n']))) done d :=
    .rename done (by simp [hsrc])
  have hbefore : view soloFormat s.disk (.archive ['n']) = none := by
    rw [view, hdst]
    rfl
  have hafter : view soloFormat d (.archive ['n']) = some soloManifest := by
    have hname : d.names (.record (.archive ['n'])) = some 0 := Disk.names_rename.trans hsrc
    have hvalid : valid soloFormat.validators (.archive ['n']) soloManifest = true := by
      rw [valid, soloManifest_valid]
      rfl
    rw [view, hname, Option.bind_some, Disk.files_rename, hfile, soloFormat.decode_encode _ _ hvalid]
    rfl
  exact ⟨s, _, hs, .act hc hdoes, hbefore, hafter⟩

theorem reachable_store_safe_solo : ∃ s, Transition.Reachable (Step soloFormat False) (init emptyDisk 0) s ∧
    view soloFormat s.disk (.archive ['n']) = some soloManifest ∧ s.Safe soloFormat := by
  obtain ⟨s, t, hs, hstep, -, hafter⟩ := exists_renamed
  have ht := hs.tail hstep
  exact ⟨t, ht, hafter, reachable_store_safe emptyDisk_whole ht⟩

theorem reachable_changes_solo : ∃ s t, Transition.Reachable (Step soloFormat False) (init emptyDisk 0) s ∧
    Step soloFormat False s (.act ['1']) t ∧ ∃ id op told program, Event.act ['1'] = .act id ∧
      s.clients id = some ⟨op, told, program⟩ ∧ s.lock = some id ∧
      op.Changes soloFormat (.archive ['n']) none (some soloManifest) := by
  obtain ⟨s, t, hs, hstep, hbefore, hafter⟩ := exists_renamed
  have hchange := reachable_changes emptyDisk_whole hs hstep Event.noConfusion (.archive ['n'])
  rw [hbefore, hafter] at hchange
  exact ⟨s, t, hs, hstep, hchange.resolve_left (Option.some_ne_none _)⟩

end Runs

end Bellows.Core.DiskStore
