/-
What the store's operations do to the disk, whatever they are answered: a name
of a blob or a record is changed under the mutation lock only, and only by the
rename of an own temporary file that is written and synced. A record gets what
its operation makes of the one that was found under the same lock.
-/
import Bellows.Core.DiskStore

namespace Bellows.Core.DiskStore

open Dialogue

/-! ## What an operation makes of a record -/

/-- Of the record under a path, if there is one, the operation makes another,
or removes it. -/
inductive Op.Changes (f : Format) :
    Op → (path : RecordPath) → Option (Contents path) → Option (Contents path) → Prop
  | candidate {c maxCandidates} {old : Option (List ActionCandidate)} : f.validators.candidate c = true →
      Changes f (.putCandidate c maxCandidates) (.action c.staticKey) old
        (some (Store.updatedIndex maxCandidates c (old.getD [])))
  | declared {r} : f.validators.declared r = true → Changes f (.putDeclared r) (.declared r.key) none (some r)
  | archive {m} : f.validators.archive m = true → Changes f (.putArchive m) (.archive m.name) none (some m)
  | removed {key} {old : DeclaredActionRecord} : Changes f (.removeDeclared key) (.declared key) (some old) none
  | evicted {batch path units} {old : Option (Contents path)} : (path, units) ∈ batch →
      units.all (·.candidate.isNone) = true → Changes f (.evictBatch batch) path old none
  | thinned {batch key units uses} {index : List ActionCandidate} : (.action key, units) ∈ batch →
      keptOf units uses index ≠ [] →
      Changes f (.evictBatch batch) (.action key) (some index) (some (keptOf units uses index))
  | emptied {batch key units uses} {index : List ActionCandidate} : (.action key, units) ∈ batch →
      keptOf units uses index = [] → Changes f (.evictBatch batch) (.action key) (some index) none

/-- An index has room for no more candidates than may be read again. -/
def Op.Bounded : Op → Prop
  | .putCandidate _ maxCandidates => maxCandidates ≤ 1024
  | _ => True

/-- What the operation puts. -/
def Op.puts : Op → Option Place
  | .putBlob expected _ => some (.blob expected)
  | .uploadBlob digest _ _ => some (.blob digest)
  | .putCandidate c _ => some (.record (.action c.staticKey))
  | .putDeclared r => some (.record (.declared r.key))
  | .putArchive m => some (.record (.archive m.name))
  | _ => none

variable {f : Format}

theorem validIndex_iff {v : Validators} {key : Text} {index : List ActionCandidate} :
    Store.validIndex v key index = true ↔
      index.length ≤ 1024 ∧ ∀ c ∈ index, v.candidate c = true ∧ c.staticKey = key := by
  simp [Store.validIndex]

/-- What is made of a valid record is valid. -/
theorem Op.Changes.valid {op : Op} {path : RecordPath} {old : Option (Contents path)} {new : Contents path}
    (h : op.Changes f path old (some new)) (hop : op.Bounded)
    (hold : ∀ o, old = some o → DiskStore.valid f.validators path o = true) :
    DiskStore.valid f.validators path new = true := by
  cases h with
  | @candidate c maxCandidates old hc =>
    refine validIndex_iff.2 ⟨?_, fun other hother => ?_⟩
    · have hlength : (Store.updatedIndex maxCandidates c (old.getD [])).length ≤ max maxCandidates 1 :=
        List.length_take_le _ _
      have hmax : maxCandidates ≤ 1024 := hop
      omega
    · rcases List.mem_cons.1 (List.mem_of_mem_take hother) with rfl | hother
      · exact ⟨hc, rfl⟩
      · have hbefore := (List.mem_filter.1 hother).1
        cases old with
        | none => cases hbefore
        | some index => exact (validIndex_iff.1 (hold index rfl)).2 other hbefore
  | declared hr => simp [DiskStore.valid, hr]
  | archive hm => simp [DiskStore.valid, hm]
  | @thinned batch key units uses index =>
    obtain ⟨hlength, hall⟩ := validIndex_iff.1 (hold index rfl)
    refine validIndex_iff.2 ⟨(List.length_filter_le _ _).trans hlength, fun c hc => ?_⟩
    exact hall c (List.mem_filter.1 hc).1

/-! ## What an operation has been told -/

/-- The temporary file that is being written. -/
structure Temp where
  place : Place
  file : Nat
  content : Bytes
  synced : Bool

structure Told where
  locked : Bool
  number : Option Nat
  temp : Option Temp
  /-- What the records were found to be under the lock. -/
  seen : List (Σ path : RecordPath, Option (Contents path))
  /-- Records that were read and do not validate. -/
  bad : List RecordPath
  /-- What was renamed last, and not synced. -/
  placed : Option Place
  /-- What was put and synced under the lock. -/
  lasting : List Place
  /-- A rename was. -/
  refused : Bool

namespace Told

def init : Told := ⟨false, none, none, [], [], none, [], false⟩

/-- What was known of the place may be so no more. -/
def forget (told : Told) (place : Place) : Told :=
  { told with seen := told.seen.filter (Place.record ·.1 ≠ place), lasting := told.lasting.filter (· ≠ place) }

def found (told : Told) (path : RecordPath) (value : Option (Contents path)) : Told :=
  if told.locked then { told with seen := ⟨path, value⟩ :: told.seen } else told

/-- The content of a record file. -/
def reads (f : Format) (told : Told) (path : RecordPath) (bytes : Bytes) : Told :=
  match f.decode path bytes with
  | .ok value =>
    let told := told.found path (some value)
    if valid f.validators path value then told else { told with bad := path :: told.bad }
  | .error _ => { told with bad := path :: told.bad }

def wrote (told : Told) (bytes : Bytes) (done : Bool) : Told :=
  let add (temp : Temp) : Temp := { temp with content := temp.content ++ bytes, synced := false }
  { told with temp := if done then told.temp.map add else none }

def renamed (told : Told) (src dst : Place) (done : Bool) : Told :=
  { (told.forget src).forget dst with
    temp := none, placed := if done then some dst else none, refused := told.refused || !done }

def dirSynced (told : Told) (folder : Folder) : Told :=
  { told with lasting := (told.placed.filter (·.folder = folder)).toList ++ told.lasting }

def after (f : Format) (told : Told) : (c : Call) → Answer c → Told
  | .lock, .ok () => { told with locked := true, seen := [], placed := none, lasting := [], refused := false }
  | .unlock, _ => { told with locked := false, seen := [] }
  | .tempNumber, n => { told with number := some n }
  | .createNew place, .ok file => { told with temp := some ⟨place, file, [], false⟩ }
  | .createNew _, .error _ => { told with temp := none }
  | .write _ bytes, answer => told.wrote bytes answer.isOk
  | .sync _, .ok () => { told with temp := told.temp.map fun temp => { temp with synced := true } }
  | .exists (.record path), false => told.found path none
  | .read (.record path), .ok bytes => told.reads f path bytes
  | .rename src dst, answer => told.renamed src dst answer.isOk
  | .remove place, _ => { told.forget place with placed := none }
  | .syncDir folder, .ok () => told.dirSynced folder
  | _, _ => told

end Told

/-! ## The monitor -/

/-- The own temporary file, whole and on disk. -/
def Ready (told : Told) (src : Place) (content : Bytes) : Prop :=
  ∃ temp, told.temp = some temp ∧ temp.place = src ∧ temp.synced = true ∧ temp.content = content

/-- Where a file may be moved. -/
def AllowsRename (f : Format) (op : Op) (told : Told) (src : Place) : Place → Prop
  | .blob digest => told.locked = true ∧ ∃ content, Ready told src content ∧ f.digest content = digest
  | .record path => told.locked = true ∧ ∃ old new, Ready told src (f.encode path new) ∧ ⟨path, old⟩ ∈ told.seen ∧
      op.Changes f path old (some new)
  | .quarantined _ => ∃ path ∈ told.bad, src = .record path
  | .temp .. => False

def AllowsRemove (f : Format) (op : Op) (told : Told) : Place → Prop
  | .blob _ => told.locked = true
  | .record path => told.locked = true ∧
      ∀ old : Contents path, (∀ value, ⟨path, value⟩ ∈ told.seen → value = some old) → op.Changes f path (some old) none
  | .quarantined _ => False
  | .temp .. => True

def Allows (f : Format) (op : Op) (told : Told) : Call → Prop
  | .lock => told.locked = false
  | .unlock => told.locked = true
  | .createNew place => ∃ folder n, place = .temp folder n ∧ told.number = some n
  | .write file _ => ∃ temp, told.temp = some temp ∧ temp.file = file
  | .sync file => ∃ temp, told.temp = some temp ∧ temp.file = file
  | .rename src dst => AllowsRename f op told src dst
  | .remove place => AllowsRemove f op told place
  | _ => True

def monitor (f : Format) (op : Op) : Monitor Answer Told := ⟨Allows f op, Told.after f⟩

/-- What was put under the lock was on disk, unless a rename was refused. -/
def Put (told : Told) (place : Place) : Prop := place ∈ told.lasting ∨ told.refused = true

/-- How an operation ends. -/
structure Ended (op : Op) (told : Told) (result : Except Failure Bool) : Prop where
  unlocked : told.locked = false
  put : result = .ok true → ∀ place, op.puts = some place → Put told place

/-! ## The programs -/

abbrev Asks (f : Format) (op : Op) {α : Type} (I : Told → Prop) (Q : Told → α → Prop) (p : Storing α) (told : Told) :
    Prop := Attempts (monitor f op) I Q p told

/-- Whether the lock is held. -/
def Locked (b : Bool) (told : Told) : Prop := told.locked = b

/-- It does not depend on the temporary file. -/
def Loose (I : Told → Prop) : Prop :=
  ∀ told number temp, I told → I { told with number := number, temp := temp }

theorem loose_locked (b : Bool) : Loose (Locked b) := fun _ _ _ h => h

/-- What changes nothing that is known. -/
def Call.plain : Call → Bool
  | .exists (.blob _) | .read (.blob _) => true
  | c => c.aside

theorem Call.plain_of_aside {c : Call} (h : c.aside = true) : c.plain = true := by
  cases c <;> first | rfl | cases h

variable {op : Op} {α β : Type} {I : Told → Prop} {R : Told → β → Prop} {told : Told}

theorem Told.after_plain {c : Call} (hc : c.plain = true) (answer : Answer c) : told.after f c answer = told := by
  cases c with
  | «exists» place => cases place <;> first | rfl | cases hc
  | read place => cases place <;> first | rfl | cases hc
  | _ => first | rfl | cases hc

theorem after_plain {c : Call} (hc : c.plain = true) (answer : Answer c) :
    (monitor f op).after told c answer = told := Told.after_plain hc answer

theorem allows_plain {c : Call} (hc : c.plain = true) : (monitor f op).allows told c := by
  cases c <;> trivial

theorem asks_plain_bind {c : Call} {read : Answer c → Except Failure α} {g : α → Storing β} (hc : c.plain = true)
    (hI : I told) (hg : ∀ answer a, read answer = .ok a → Asks f op I R (g a) told) :
    Asks f op I R (tryAsk c read >>= g) told := by
  refine Attempts.tryAsk_bind (allows_plain hc) (fun answer e _ => ?_) fun answer a ha => ?_
  · exact (after_plain hc answer).symm ▸ hI
  · exact (after_plain hc answer).symm ▸ hg answer a ha

theorem asks_plain {c : Call} {read : Answer c → Except Failure α} (hc : c.plain = true) (hI : I told) :
    Asks f op I (fun t _ => t = told) (tryAsk c read) told :=
  attempts_tryAsk (allows_plain hc) (fun answer => (after_plain hc answer).symm ▸ hI) fun answer _ _ =>
    after_plain hc answer

theorem asks_fails {Q : Told → α → Prop} {failure : Failure} (hI : I told) :
    Asks f op I Q (fails failure) told := attempts_settled hI fun _ h => by cases h

theorem asks_checked_bind {place : Place} {g : Unit → Storing β} (hI : I told) (hg : Asks f op I R (g ()) told) :
    Asks f op I R (checked place >>= g) told := by
  unfold checked
  split
  · exact hg
  · exact asks_fails hI

/-! ### Temporary files -/

theorem tempPath_asks (hl : Loose I) (hI : I told) (folder : Folder) :
    Asks f op I (fun t temp => ∃ n, temp = .temp folder n ∧ t.number = some n) (tempPath folder) told := by
  refine asks_plain_bind rfl hI fun _ _ _ => ?_
  refine Attempts.tryAsk_bind trivial (fun n e h => by cases h) fun n a h => ?_
  obtain rfl := Except.ok.inj h
  exact attempts_pure (hl told (some n) told.temp hI) ⟨n, rfl, rfl⟩

theorem wrote_loose (hl : Loose I) (hI : I told) (bytes : Bytes) (done : Bool) : I (told.wrote bytes done) :=
  hl told told.number _ hI

theorem sync_asks {temp : Temp} (hl : Loose I) (hI : I told) (htemp : told.temp = some temp) :
    Asks f op I (fun t _ => Ready t temp.place temp.content) (tryAsk (.sync temp.file) io) told := by
  refine attempts_tryAsk ⟨temp, htemp, rfl⟩ (fun answer => ?_) fun answer a h => ?_
  · cases answer with
    | ok u => exact hl told told.number _ hI
    | error e => exact hI
  · cases answer with
    | ok u => exact ⟨{ temp with synced := true }, by simp [monitor, Told.after, htemp], rfl, rfl, rfl⟩
    | error e => cases h

/-- One write, after which the file has the bytes too. -/
theorem write_bind (temp : Temp) {bytes : Bytes} {g : Unit → Storing β} (hl : Loose I) (hI : I told)
    (htemp : told.temp = some temp) (hg : ∀ t, I t →
      t.temp = some { temp with content := temp.content ++ bytes, synced := false } → Asks f op I R (g ()) t) :
    Asks f op I R (tryAsk (.write temp.file bytes) io >>= g) told := by
  refine Attempts.tryAsk_bind ⟨temp, htemp, rfl⟩ (fun answer e _ => wrote_loose hl hI _ _) fun answer a h => ?_
  cases answer with
  | error e => cases h
  | ok u =>
    refine hg _ (wrote_loose hl hI _ _) ?_
    simp [monitor, Told.after, Told.wrote, Except.isOk, Except.toBool, htemp]

theorem createNew_bind {folder : Folder} {n : Nat} {g : Nat → Storing β} (hl : Loose I) (hI : I told)
    (hn : told.number = some n) (hg : ∀ t file, I t → t.temp = some ⟨.temp folder n, file, [], false⟩ →
      Asks f op I R (g file) t) : Asks f op I R (tryAsk (.createNew (.temp folder n)) io >>= g) told := by
  refine Attempts.tryAsk_bind ⟨folder, n, rfl, hn⟩ (fun answer e h => ?_) fun answer file h => ?_
  · cases answer with
    | ok file => cases h
    | error e => exact hl told told.number _ hI
  · cases answer with
    | ok file' =>
      obtain rfl := Except.ok.inj h
      exact hg _ _ (hl told told.number _ hI) rfl
    | error e => cases h

theorem writeNew_asks {folder : Folder} {n : Nat} (hl : Loose I) (hI : I told) (hn : told.number = some n)
    (bytes : Bytes) :
    Asks f op I (fun t _ => Ready t (.temp folder n) bytes) (writeNew (.temp folder n) bytes) told :=
  createNew_bind hl hI hn fun _ _ hI htemp => write_bind _ hl hI htemp fun _ hI htemp => sync_asks hl hI htemp

/-! ### Records -/

theorem found_eq (told : Told) (path : RecordPath) (value : Option (Contents path)) :
    ∃ seen, told.found path value = { told with seen := seen } := by
  unfold Told.found
  split
  · exact ⟨_, rfl⟩
  · exact ⟨told.seen, rfl⟩

theorem reads_eq (f : Format) (told : Told) (path : RecordPath) (bytes : Bytes) :
    ∃ seen bad, told.reads f path bytes = { told with seen := seen, bad := bad } := by
  unfold Told.reads
  split
  · next value _ =>
    obtain ⟨seen, hseen⟩ := found_eq told path (some value)
    dsimp only
    split
    · exact ⟨seen, told.bad, hseen⟩
    · exact ⟨seen, _, by rw [hseen]⟩
  · exact ⟨told.seen, _, rfl⟩

theorem locked_found {b : Bool} {path : RecordPath} {value : Option (Contents path)} (h : told.locked = b) :
    (told.found path value).locked = b := by
  obtain ⟨seen, hseen⟩ := found_eq told path value
  rw [hseen, h]

theorem locked_reads {b : Bool} {path : RecordPath} {bytes : Bytes} (h : told.locked = b) :
    (told.reads f path bytes).locked = b := by
  obtain ⟨seen, bad, hseen⟩ := reads_eq f told path bytes
  rw [hseen, h]

/-- A call that leaves the lock, and what was refused. -/
def Call.mild : Call → Bool
  | .exists _ | .read _ | .tempNumber => true
  | .remove (.temp ..) => true
  | c => c.plain

theorem after_mild {c : Call} (hc : c.mild = true) (answer : Answer c) :
    ((monitor f op).after told c answer).locked = told.locked ∧
      ((monitor f op).after told c answer).refused = told.refused := by
  cases c with
  | «exists» place =>
    cases place with
    | record path =>
      cases answer with
      | false =>
        obtain ⟨seen, hseen⟩ := found_eq told path none
        show (told.found path none).locked = _ ∧ (told.found path none).refused = _
        rw [hseen]
        exact ⟨rfl, rfl⟩
      | true => exact ⟨rfl, rfl⟩
    | _ => exact ⟨rfl, rfl⟩
  | read place =>
    cases place with
    | record path =>
      cases answer with
      | ok bytes =>
        obtain ⟨seen, bad, hseen⟩ := reads_eq f told path bytes
        show (told.reads f path bytes).locked = _ ∧ (told.reads f path bytes).refused = _
        rw [hseen]
        exact ⟨rfl, rfl⟩
      | error e => exact ⟨rfl, rfl⟩
    | _ => exact ⟨rfl, rfl⟩
  | tempNumber => exact ⟨rfl, rfl⟩
  | remove place => cases place <;> exact ⟨rfl, rfl⟩
  | _ => first | exact ⟨rfl, rfl⟩ | cases hc

/-- After a refused rename. -/
def Refused (b : Bool) (told : Told) : Prop := told.locked = b ∧ told.refused = true

theorem allows_mild {c : Call} (hc : c.mild = true) : (monitor f op).allows told c := by
  cases c with
  | remove place => cases place <;> trivial
  | _ => trivial

theorem asks_mild {c : Call} {read : Answer c → Except Failure α} (hc : c.mild = true)
    (hI : ∀ t : Told, t.locked = told.locked → t.refused = told.refused → I t) :
    Asks f op I (fun _ _ => True) (tryAsk c read) told :=
  attempts_tryAsk (allows_mild hc) (fun answer => hI _ (after_mild hc answer).1 (after_mild hc answer).2)
    fun _ _ _ => trivial

theorem refused_mild {b : Bool} {c : Call} {read : Answer c → Except Failure α} (hc : c.mild = true)
    (h : Refused b told) : Asks f op (Refused b) (fun _ _ => True) (tryAsk c read) told :=
  asks_mild hc fun _ hlocked hrefused => ⟨hlocked.trans h.1, hrefused.trans h.2⟩

theorem afterRefusal_asks {b : Bool} {place : Place} {folder : Folder} {n : Nat} {bytes : Bytes} {failure : Failure}
    (h : Refused b told) :
    Asks f op (Refused b) (fun _ _ => True) (afterRefusal place (.temp folder n) bytes failure) told := by
  refine (refused_mild rfl h).bind fun t there ht _ => ?_
  refine (refused_mild rfl ht).attempt_bind fun t _ ht _ => ?_
  split
  · refine (refused_mild rfl ht).attempt_bind fun t _ ht _ => ?_
    exact attempts_settled ht fun _ _ => trivial
  · exact asks_fails ht

/-- The lock is held, and this was found under it. -/
def Found (path : RecordPath) (old : Option (Contents path)) (told : Told) : Prop :=
  told.locked = true ∧ ⟨path, old⟩ ∈ told.seen

theorem loose_found (path : RecordPath) (old : Option (Contents path)) : Loose (Found path old) := fun _ _ _ h => h

/-- What was placed lasts once its directory is synced. -/
theorem syncParent_asks {b : Bool} {place : Place} (h : told.locked = b) (hplaced : told.placed = some place) :
    Asks f op (Locked b) (fun t _ => Put t place) (syncParent place) told := by
  refine attempts_tryAsk trivial (fun answer => ?_) fun answer a hok => ?_
  · cases answer <;> exact h
  · cases answer with
    | ok u => exact .inl (by simp [monitor, Told.after, Told.dirSynced, hplaced, Option.filter])
    | error e => cases hok

/-- `atomic_write` of what the operation makes of the record that was found. -/
theorem writeRecord_asks {path : RecordPath} {old : Option (Contents path)} {new : Contents path}
    (h : Found path old told) (hchange : op.Changes f path old (some new)) :
    Asks f op (Locked true) (fun t _ => Put t (.record path)) (writeRecord f path new) told := by
  have hlocked : ∀ {t}, Found path old t → Locked true t := fun h => h.1
  refine (tempPath_asks (loose_found path old) h _).bindTo (fun _ => hlocked) fun t temp ht htemp => ?_
  obtain ⟨n, rfl, hn⟩ := htemp
  refine (writeNew_asks (loose_found path old) ht hn _).bindTo (fun _ => hlocked) fun t _ ht hready => ?_
  refine Attempts.attempt_tryAsk_bind ⟨ht.1, old, new, hready, ht.2, hchange⟩ fun answer => ?_
  cases answer with
  | ok u => exact syncParent_asks ht.1 rfl
  | error e =>
    have hrefused : Refused true (t.renamed (.temp (Place.record path).folder n) (.record path) false) :=
      ⟨ht.1, by simp [Told.renamed]⟩
    exact (afterRefusal_asks hrefused).mono (fun _ ht => ht.1) fun _ _ ht _ => .inr ht.2

/-! ### Under the lock -/

theorem withMutationLock_asks {operation : Storing α} {Q : Told → α → Prop} (h : told.locked = false)
    (hQ : ∀ t a, Q t a → Q { t with locked := false, seen := [] } a)
    (hoperation : ∀ t, t.locked = true → t.temp = told.temp → Asks f op (Locked true) Q operation t) :
    Asks f op (Locked false) Q (withMutationLock operation) told := by
  refine asks_plain_bind rfl h fun _ _ _ => ?_
  refine Attempts.tryAsk_bind h (fun answer e hfail => ?_) fun answer a hok => ?_
  · cases answer with
    | ok u => cases hfail
    | error e => exact h
  · cases answer with
    | error e => cases hok
    | ok u =>
      have hheld := hoperation { told with locked := true, seen := [], placed := none, lasting := [], refused := false }
        rfl rfl
      refine hheld.attempt_bind fun t result ht hresult => ?_
      refine Attempts.attempt_tryAsk_bind ht fun answer => ?_
      refine attempts_settled rfl fun a ha => ?_
      cases result with
      | error e => cases answer <;> cases ha
      | ok value =>
        cases answer with
        | error e => cases ha
        | ok u =>
          obtain rfl := Except.ok.inj ha
          exact hQ t value (hresult value rfl)

theorem unlocked_mild {b : Bool} {c : Call} {read : Answer c → Except Failure α} (hc : c.mild = true)
    (h : told.locked = b) : Asks f op (Locked b) (fun _ _ => True) (tryAsk c read) told :=
  asks_mild hc fun _ hlocked _ => hlocked.trans h

/-! ### Blobs -/

variable {expected : Text} {folder : Folder} {n : Nat} {content : Bytes}

theorem readBlob_asks {digest : Text} (hI : I told) :
    Asks f op I (fun t _ => t = told) (readBlob f digest) told := by
  refine asks_checked_bind hI ?_
  exact asks_plain_bind rfl hI fun _ _ _ => attempts_settled hI fun _ _ => rfl

/-- It answers `true` once the blob is on disk. -/
def Commits (expected : Text) (told : Told) (committed : Bool) : Prop := committed = true → Put told (.blob expected)

theorem moveBlob_asks (h : told.locked = true) (hready : Ready told (.temp folder n) content)
    (hdigest : f.digest content = expected) :
    Asks f op (Locked true) (Commits expected) (moveBlob expected (.temp folder n)) told := by
  refine Attempts.tryAsk_bind ⟨h, content, hready, hdigest⟩ (fun _ _ _ => h) fun answer a hok => ?_
  cases answer with
  | error e => cases hok
  | ok u =>
    have hsynced : Asks f op (Locked true) (fun t _ => Put t (.blob expected)) (syncParent (.blob expected))
        (told.renamed (.temp folder n) (.blob expected) true) := syncParent_asks h rfl
    exact hsynced.bind fun t _ ht hput => attempts_pure (Q := Commits expected) ht fun _ => hput

theorem placeBlob_asks (h : told.locked = true) (hready : Ready told (.temp folder n) content)
    (hdigest : f.digest content = expected) :
    Asks f op (Locked true) (Commits expected) (placeBlob f expected (.temp folder n)) told := by
  refine asks_plain_bind rfl h fun _ there _ => ?_
  split
  · refine (readBlob_asks (I := (· = told)) rfl).attempt_bind fun t result ht _ => ?_
    subst ht
    cases result with
    | ok bytes => exact asks_plain_bind rfl h fun _ _ _ => attempts_pure h fun hfalse => by cases hfalse
    | error e => exact Attempts.tryAsk_bind h (fun _ _ _ => h) fun _ _ _ => moveBlob_asks h hready hdigest
  · exact moveBlob_asks h hready hdigest

theorem dropTemp_asks {b : Bool} {Q : Told → α → Prop} {failure : Failure} (h : told.locked = b) :
    Asks f op (Locked b) Q (dropTemp (.temp folder n) failure) told :=
  (unlocked_mild rfl h).attempt_bind fun _ _ ht _ => asks_fails ht

theorem commitBlob_asks (h : told.locked = false) (hready : Ready told (.temp folder n) content)
    (hdigest : f.digest content = expected) :
    Asks f op (Locked false) (Commits expected) (commitBlob f expected (.temp folder n)) told := by
  refine asks_checked_bind h ?_
  have hplace : Asks f op (Locked false) (Commits expected)
      (withMutationLock (placeBlob f expected (.temp folder n))) told := by
    refine withMutationLock_asks h (fun t a hcommits => hcommits) fun t ht htemp => placeBlob_asks ht ?_ hdigest
    obtain ⟨temp, hbefore, hready⟩ := hready
    exact ⟨temp, htemp.trans hbefore, hready⟩
  refine hplace.attempt_bind fun t committed ht hcommits => ?_
  unfold dropUnless
  split
  · exact attempts_settled ht hcommits
  · next hne =>
    have hdrop : Asks f op (Locked false) (fun _ _ => True)
        (attempt (tryAsk (.remove (.temp folder n)) io) >>= fun _ => pure ()) t :=
      (unlocked_mild rfl ht).attempt_bind fun t _ ht _ => attempts_pure ht trivial
    refine hdrop.bind fun t _ ht _ => attempts_settled ht fun a ha htrue => ?_
    exact absurd (htrue ▸ ha) hne

theorem blobTempPath_asks {digest : Text} (h : told.locked = false) :
    Asks f op (Locked false) (fun t temp => ∃ n, temp = .temp (Place.blob digest).folder n ∧ t.number = some n)
      (blobTempPath digest) told :=
  asks_checked_bind h (tempPath_asks (loose_locked false) h _)

theorem putBlob_asks {bytes : Bytes} (h : told.locked = false) :
    Asks f op (Locked false) (Commits expected) (putBlob f expected bytes) told := by
  unfold putBlob
  split
  · next hdigest =>
    refine (blobTempPath_asks h).bind fun t temp ht htemp => ?_
    obtain ⟨n, rfl, hn⟩ := htemp
    refine (writeNew_asks (loose_locked false) ht hn bytes).attempt_bind fun t result ht hready => ?_
    cases result with
    | ok u => exact commitBlob_asks ht (hready u rfl) hdigest
    | error failure => exact dropTemp_asks ht
  · exact asks_fails h

/-- The file has what has been received. -/
theorem receiveChunks_asks {b : Bool} {place : Place} {file limit : Nat} :
    ∀ (chunks : List (Except String Bytes)) {received : Bytes} {synced : Bool} {told : Told}, told.locked = b →
      told.temp = some ⟨place, file, received, synced⟩ →
      Asks f op (Locked b) (fun t all => ∃ synced, t.temp = some ⟨place, file, all, synced⟩)
        (receiveChunks file limit received chunks) told
  | [], received, synced, told, h, htemp => attempts_pure h ⟨synced, htemp⟩
  | .error message :: chunks, received, synced, told, h, htemp => asks_fails h
  | .ok chunk :: chunks, received, synced, told, h, htemp => by
    rw [receiveChunks]
    split
    · exact asks_fails h
    · refine write_bind ⟨place, file, received, synced⟩ (loose_locked b) h htemp fun t ht htemp => ?_
      exact receiveChunks_asks chunks ht htemp

theorem receiveBlob_asks {body : List (Except String Bytes)} {limit : Nat} (h : told.locked = false)
    (hn : told.number = some n) : Asks f op (Locked false)
      (fun t actual => ∃ content, Ready t (.temp folder n) content ∧ f.digest content = actual)
      (receiveBlob f (.temp folder n) body limit) told := by
  refine createNew_bind (loose_locked false) h hn fun t file ht htemp => ?_
  refine (receiveChunks_asks body ht htemp).bind fun t received ht htemp => ?_
  obtain ⟨synced, htemp⟩ := htemp
  refine (sync_asks (loose_locked false) ht htemp).bind fun t _ ht hready => ?_
  exact attempts_pure ht ⟨received, hready, rfl⟩

theorem uploadBlob_asks {body : List (Except String Bytes)} {limit : Nat} (h : told.locked = false) :
    Asks f op (Locked false) (Commits expected) (uploadBlob f expected body limit) told := by
  refine (blobTempPath_asks h).bind fun t temp ht htemp => ?_
  obtain ⟨n, rfl, hn⟩ := htemp
  refine (receiveBlob_asks ht hn).attempt_bind fun t result ht hready => ?_
  cases result with
  | error failure => exact dropTemp_asks ht
  | ok actual =>
    obtain ⟨content, hready, hdigest⟩ := hready actual rfl
    show Asks _ _ _ _ (if actual = expected then _ else _) _
    split
    · next hsame => exact commitBlob_asks ht hready (hdigest.trans hsame)
    · exact dropTemp_asks ht

/-! ### Reading a record -/

section Read

variable {b : Bool} {path : RecordPath}

/-- What is found under the lock is known. -/
theorem found_of_locked {value : Option (Contents path)} (h : told.locked = true) :
    Found path value (told.found path value) := by
  rw [Told.found, if_pos h]
  exact ⟨h, List.mem_cons_self⟩

theorem found_reads {value : Contents path} {bytes : Bytes} (h : told.locked = true)
    (hdecode : f.decode path bytes = .ok value) : Found path (some value) (told.reads f path bytes) := by
  simp only [Told.reads, hdecode]
  split
  · exact found_of_locked h
  · exact found_of_locked h

theorem quarantine_asks {Q : Told → α → Prop} {failure : Failure} (h : told.locked = b) (hbad : path ∈ told.bad) :
    Asks f op (Locked b) Q (quarantine path failure) told := by
  refine Attempts.tryAsk_bind trivial (fun _ _ _ => h) fun n a hn => ?_
  obtain rfl := Except.ok.inj hn
  have hmove : Asks f op (Locked b) (fun _ _ => True)
      (tryAsk (.rename (.record path) (.quarantined n)) io >>= fun _ => syncParent (.quarantined n))
      { told with number := some n } := by
    refine Attempts.tryAsk_bind ⟨path, hbad, rfl⟩ (fun _ _ _ => h) fun _ _ _ => ?_
    exact attempts_tryAsk trivial (fun answer => by cases answer <;> exact h) fun _ _ _ => trivial
  refine hmove.attempt_bind fun t moved ht _ => ?_
  cases moved <;> exact asks_fails ht

theorem readJsonRecord_asks (h : told.locked = b) :
    Asks f op (Locked b) (fun t value => b = true → Found path (some value) t) (readJsonRecord f path) told := by
  refine Attempts.tryAsk_bind trivial (fun answer _ _ => ?_) fun answer bytes hok => ?_
  · cases answer with
    | ok bytes => exact locked_reads h
    | error e => exact h
  · cases answer with
    | error e => cases hok
    | ok bytes' =>
      obtain rfl := Except.ok.inj hok
      show Asks _ _ _ _ _ (told.reads f path bytes')
      cases hdecode : f.decode path bytes' with
      | error message =>
        refine quarantine_asks (locked_reads h) ?_
        simp [Told.reads, hdecode]
      | ok value =>
        show Asks _ _ _ _ (validateRecord f path value) _
        unfold validateRecord
        split
        · next hvalid =>
          exact attempts_pure (locked_reads h) fun hb => found_reads (h.trans hb) hdecode
        · next hvalid =>
          refine quarantine_asks (locked_reads h) ?_
          simp [Told.reads, hdecode, hvalid]

theorem readRecord_asks (h : told.locked = b) :
    Asks f op (Locked b) (fun t value => b = true → Found path value t) (readRecord f path) told := by
  refine asks_checked_bind h ?_
  refine Attempts.tryAsk_bind trivial (fun _ _ hfail => by cases hfail) fun there a hok => ?_
  obtain rfl := Except.ok.inj hok
  cases there with
  | true => exact (readJsonRecord_asks h).bind fun t value ht hfound => attempts_pure ht hfound
  | false => exact attempts_pure (locked_found h) fun hb => found_of_locked (h.trans hb)

theorem readCandidates_asks {key : Text} (h : told.locked = b) : Asks f op (Locked b)
    (fun t index => b = true → ∃ old : Option (List ActionCandidate), Found (.action key) old t ∧ index = old.getD [])
    (readCandidates f key) told :=
  have hread : Asks f op (Locked b) (fun t old => b = true → Found (.action key) old t) (readRecord f (.action key)) told :=
    readRecord_asks h
  hread.bind fun _ old ht hfound => attempts_pure ht fun hb => ⟨old, hfound hb, rfl⟩

end Read

/-! ### The operations on records -/

theorem putCandidate_asks {c : ActionCandidate} {maxCandidates : Nat} (h : told.locked = false) :
    Asks f (.putCandidate c maxCandidates) (Locked false) (fun t _ => Put t (.record (.action c.staticKey)))
      (putCandidate f c maxCandidates) told := by
  unfold putCandidate
  split
  · next hc =>
    refine withMutationLock_asks h (fun t _ hput => hput) fun t ht _ => ?_
    refine asks_checked_bind ht (asks_plain_bind rfl ht fun _ _ _ => ?_)
    refine (readCandidates_asks ht).bind fun t index ht hfound => ?_
    obtain ⟨old, hold, rfl⟩ := hfound rfl
    refine (writeRecord_asks hold (.candidate hc)).bind fun t _ ht hput => ?_
    exact (asks_plain rfl ht).mono (fun _ ht => ht) fun _ _ _ hsame => hsame ▸ hput
  · exact asks_fails h

theorem putDeclared_asks {r : DeclaredActionRecord} (h : told.locked = false) :
    Asks f (.putDeclared r) (Locked false) (fun t new => new = true → Put t (.record (.declared r.key)))
      (putDeclared f r) told := by
  unfold putDeclared
  split
  · next hr =>
    refine withMutationLock_asks h (fun t _ hput => hput) fun t ht _ => ?_
    refine asks_checked_bind ht ((readRecord_asks ht).bind fun t found ht hfound => ?_)
    cases found with
    | some existing =>
      show Asks _ _ _ _ (settled (if existing = r then _ else _)) _
      split
      · exact attempts_settled ht fun a ha => by cases ha; exact fun hfalse => by cases hfalse
      · exact attempts_settled ht fun a ha => by cases ha
    | none =>
      refine asks_plain_bind rfl ht fun _ _ _ => ?_
      exact (writeRecord_asks (hfound rfl) (.declared hr)).bind fun t _ ht hput => attempts_pure ht fun _ => hput
  · exact asks_fails h

theorem putArchive_asks {m : ArchiveManifest} (h : told.locked = false) :
    Asks f (.putArchive m) (Locked false) (fun t new => new = true → Put t (.record (.archive m.name)))
      (putArchive f m) told := by
  unfold putArchive
  split
  · next hm =>
    refine withMutationLock_asks h (fun t _ hput => hput) fun t ht _ => ?_
    refine asks_checked_bind ht ((readRecord_asks ht).bind fun t found ht hfound => ?_)
    cases found with
    | some existing =>
      show Asks _ _ _ _ (settled (if existing.treeDigest = m.treeDigest then _ else _)) _
      split
      · exact attempts_settled ht fun a ha => by cases ha; exact fun hfalse => by cases hfalse
      · exact attempts_settled ht fun a ha => by cases ha
    | none =>
      exact (writeRecord_asks (hfound rfl) (.archive hm)).bind fun t _ ht hput => attempts_pure ht fun _ => hput
  · exact asks_fails h

theorem removeDeclared_asks {key : Text} (h : told.locked = false) :
    Asks f (.removeDeclared key) (Locked false) (fun _ _ => True) (removeDeclared key) told := by
  refine asks_checked_bind h (withMutationLock_asks h (fun _ _ _ => trivial) fun t ht _ => ?_)
  refine (unlocked_mild rfl ht).bind fun t there ht _ => ?_
  split
  · refine Attempts.tryAsk_bind ⟨ht, fun old _ => .removed⟩ (fun _ _ _ => ht) fun _ _ _ => ?_
    refine Attempts.bind (Q := fun _ _ => True) ?_ fun t _ ht _ => attempts_pure ht trivial
    exact attempts_tryAsk trivial (fun answer => by cases answer <;> exact ht) fun _ _ _ => trivial
  · exact attempts_pure ht trivial

/-! ### A collection -/

section Collect

variable {b : Bool}

theorem readIndexes_asks : ∀ (keys : List Text) {told : Told}, told.locked = b →
    Asks f op (Locked b) (fun _ _ => True) (readIndexes f keys) told
  | [], _, h => attempts_pure h trivial
  | key :: keys, _, h => by
    refine (readCandidates_asks h).attempt_bind fun t index ht _ => ?_
    exact (readIndexes_asks keys ht).bind fun t rest ht _ => attempts_pure ht trivial

theorem refresh_asks (h : told.locked = b) : Asks f op (Locked b) (fun _ _ => True) (refresh f) told :=
  asks_plain_bind rfl h fun _ _ _ => (readIndexes_asks _ h).bind fun _ _ ht _ => attempts_pure ht trivial

/-- The removal of a file is all there is to it. -/
theorem remove_asks {place : Place} (h : told.locked = true) (hremove : AllowsRemove f op told place) :
    Asks f op (Locked true) (fun _ _ => True) (tryAsk (.remove place) removed >>= fun _ => pure ()) told :=
  Attempts.tryAsk_bind hremove (fun _ _ _ => h) fun _ _ _ => attempts_pure h trivial

variable {batch : List (RecordPath × List GcUnit)}

theorem replaceIndex_asks {key : Text} {units : List GcUnit} {uses : List (Text × Text)} {index : List ActionCandidate}
    (hmem : (.action key, units) ∈ batch) (h : Found (.action key) (some index) told) :
    Asks f (.evictBatch batch) (Locked true) (fun _ _ => True)
      (replaceIndex f key index (keptOf units uses index)) told := by
  unfold replaceIndex
  split
  · exact attempts_pure h.1 trivial
  · split
    · next hkept =>
      refine remove_asks h.1 ⟨h.1, fun old hseen => ?_⟩
      obtain rfl := Option.some.inj (hseen _ h.2)
      exact .emptied hmem hkept
    · next hkept =>
      exact (writeRecord_asks h (.thinned hmem hkept)).mono (fun _ ht => ht) fun _ _ _ _ => trivial

theorem evictCandidates_asks {key : Text} {units : List GcUnit} {uses : List (Text × Text)}
    (hmem : (.action key, units) ∈ batch) (h : told.locked = true) :
    Asks f (.evictBatch batch) (Locked true) (fun _ _ => True) (evictCandidates f key units uses) told := by
  refine Attempts.attempt_tryAsk_bind trivial fun answer => ?_
  cases answer with
  | error e =>
    cases e with
    | notFound => exact attempts_pure h trivial
    | other message => exact asks_fails h
  | ok bytes =>
    simp only [io, Except.mapError]
    cases hdecode : f.decode (.action key) bytes with
    | error message => exact attempts_pure (locked_reads h) trivial
    | ok index => exact replaceIndex_asks hmem (found_reads h hdecode)

theorem evictFrom_asks {uses : List (Text × Text)} {file : RecordPath × List GcUnit} (hmem : file ∈ batch)
    (h : told.locked = true) :
    Asks f (.evictBatch batch) (Locked true) (fun _ _ => True) (evictFrom f uses file) told := by
  unfold evictFrom
  split
  · next hwhole => exact remove_asks h ⟨h, fun old _ => .evicted hmem hwhole⟩
  · obtain ⟨path, units⟩ := file
    cases path with
    | action key => exact evictCandidates_asks hmem h
    | archive name => exact attempts_pure h trivial
    | declared key => exact attempts_pure h trivial

theorem evictBatch_asks (h : told.locked = false) :
    Asks f (.evictBatch batch) (Locked false) (fun _ _ => True) (evictBatch f batch) told := by
  refine withMutationLock_asks h (fun _ _ _ => trivial) fun t ht _ => ?_
  refine (refresh_asks ht).bind fun t recent ht _ => ?_
  exact attempts_forM batch ht fun file hmem t ht => evictFrom_asks hmem ht

theorem sweepBlob_asks {startedMs : Nat} {recent : List Text} {digest : Text} (h : told.locked = true) :
    Asks f op (Locked true) (fun _ _ => True) (sweepBlob startedMs recent digest) told := by
  refine asks_checked_bind h (asks_plain_bind rfl h fun answer modified _ => ?_)
  cases modified with
  | none => exact attempts_pure h trivial
  | some ms =>
    show Asks _ _ _ _ (if startedMs ≤ saturatingAdd ms COARSE_CLOCK_SLACK_MS ∨ digest ∈ recent then _ else _) _
    split
    · exact attempts_pure h trivial
    · exact remove_asks h h

theorem sweepBatch_asks {startedMs : Nat} {digests : List Text} (h : told.locked = false) :
    Asks f op (Locked false) (fun _ _ => True) (sweepBatch f startedMs digests) told := by
  refine withMutationLock_asks h (fun _ _ _ => trivial) fun t ht _ => ?_
  refine (refresh_asks ht).bind fun t recent ht _ => ?_
  exact attempts_forM digests ht fun digest _ t ht => sweepBlob_asks ht

theorem removeOrphanTemps_asks (h : told.locked = b) :
    Asks f op (Locked b) (fun _ _ => True) removeOrphanTemps told :=
  asks_plain_bind rfl h fun _ temps _ => attempts_forM temps h fun _ _ _ ht => unlocked_mild rfl ht

end Collect

/-! ### Every operation -/

/-- **An operation keeps to what it may do**, and ends with the lock let go of. -/
theorem Op.program_obeys (f : Format) (op : Op) : (op.program f).run.Obeys (monitor f op) (Ended op) .init := by
  have hended : ∀ {Q : Told → Bool → Prop} {p : Storing Bool}, Asks f op (Locked false) Q p .init →
      (∀ t place, Q t true → op.puts = some place → Put t place) → p.run.Obeys (monitor f op) (Ended op) .init :=
    fun h hQ => Obeys.mono h fun t result ht => ⟨ht.1, fun htrue place hplace => hQ t place (ht.2 true htrue) hplace⟩
  have hanswers : ∀ {α} {Q : Told → Prop} {p : Storing α}, Asks f op (Locked false) (fun t _ => Q t) p .init →
      Asks f op (Locked false) (fun t _ => Q t) (p >>= fun _ => pure true) .init :=
    fun h => h.bind fun t _ ht hQ => attempts_pure ht hQ
  have hinit : Locked false .init := rfl
  cases op with
  | putBlob expected bytes =>
    exact hended (putBlob_asks rfl) fun t place hput hplace => Option.some.inj hplace ▸ hput rfl
  | uploadBlob digest body limit =>
    exact hended (uploadBlob_asks rfl) fun t place hput hplace => Option.some.inj hplace ▸ hput rfl
  | readBlob digest =>
    refine hended (hanswers ((readBlob_asks hinit).mono (fun _ ht => ht) fun _ _ _ _ => trivial)) fun _ _ _ h => ?_
    cases h
  | putCandidate c maxCandidates =>
    exact hended (hanswers (putCandidate_asks rfl)) fun t place hput hplace => Option.some.inj hplace ▸ hput
  | putDeclared r =>
    exact hended (putDeclared_asks rfl) fun t place hput hplace => Option.some.inj hplace ▸ hput rfl
  | putArchive m =>
    exact hended (putArchive_asks rfl) fun t place hput hplace => Option.some.inj hplace ▸ hput rfl
  | removeDeclared key => exact hended (removeDeclared_asks rfl) fun _ _ _ h => by cases h
  | readRecord path =>
    exact hended (hanswers ((readRecord_asks rfl).mono (fun _ ht => ht) fun _ _ _ _ => trivial)) fun _ _ _ h => by
      cases h
  | evictBatch batch => exact hended (hanswers (evictBatch_asks rfl)) fun _ _ _ h => by cases h
  | sweepBatch startedMs digests => exact hended (hanswers (sweepBatch_asks rfl)) fun _ _ _ h => by cases h
  | removeOrphanTemps => exact hended (hanswers (removeOrphanTemps_asks rfl)) fun _ _ _ h => by cases h

end Bellows.Core.DiskStore
