/-
The relay's books: what is marked pending, the spool's two counts and the
open numbers say at any moment which uploads are where.

Everything follows from what each upload's own phase makes it contribute
(`Inv`); an upload's step changes one contribution, and an acceptance adds
one.
-/
import Bellows.Lib.Tally
import Bellows.Relay.System

namespace Bellows.Relay

open Tally

/-! ## What an upload contributes -/

namespace Upload

/-- Its outcome is not recorded. -/
def unrecorded (u : Upload) : Bool := u.phase = .uploading

/-- Its bytes, until it subtracts them. -/
def bytesHeld (u : Upload) : Int :=
  match u.phase with
  | .uploading | .recorded => u.length
  | _ => 0

/-- It has not subtracted its file. -/
def holdsFile (u : Upload) : Bool :=
  match u.phase with
  | .uploading | .recorded | .bytesFreed => true
  | _ => false

/-- How many steps its task has left. -/
def remaining (u : Upload) : Nat :=
  match u.phase with
  | .uploading => 4
  | .recorded => 3
  | .bytesFreed => 2
  | .fileFreed => 1
  | .finished => 0

def PendingFor (digest : Text) (u : Upload) : Bool := u.digest = digest && u.unrecorded

end Upload

namespace State

/-- Every number begun is finished. -/
def Drained (s : State) : Prop :=
  s.blobOrder.opened = [] ∧ ∀ q < s.blobOrder.next, s.finished.count q = 1

/-- The relay's books, in the state `s`. -/
structure Accounted (s : State) : Prop where
  /-- A digest is marked pending exactly when one upload of it has not
  recorded its outcome, and there are never two. -/
  pending : ∀ digest, s.uploads.countP (Upload.PendingFor digest) =
    if s.blobs.lookup digest = some .pending then 1 else 0
  spooled : s.spooled = (s.uploads.map Upload.bytesHeld).sum
  spoolFiles : s.spoolFiles = s.uploads.countP Upload.holdsFile
  noUnderflow : 0 ≤ s.spooled ∧ 0 ≤ s.spoolFiles
  pendingOpen : ∀ digest, s.blobs.lookup digest = some .pending →
    ∃ u ∈ s.uploads, u.digest = digest ∧ u.sequence ∈ s.blobOrder.opened
  /-- Each number begun is one upload's. -/
  begun : s.uploads.map (·.sequence) = List.range s.blobOrder.next
  /-- It is open, or has been finished once, and no other ever was. -/
  finished : ∀ q, s.finished.count q = if q < s.blobOrder.next ∧ q ∉ s.blobOrder.opened then 1 else 0

/-- The invariant behind the books. -/
structure Inv (s : State) : Prop where
  numbered : ∀ (q : Nat) (u : Upload), s.uploads[q]? = some u → u.sequence = q
  next : s.blobOrder.next = s.uploads.length
  opened : ∀ q, q ∈ s.blobOrder.opened ↔ ∃ u, s.uploads[q]? = some u ∧ u.phase ≠ .finished
  finished : ∀ q, s.finished.count q = if (s.uploads[q]?).any (·.phase = .finished) then 1 else 0
  pending : ∀ digest, total (fun u => if Upload.PendingFor digest u then 1 else 0) s.uploads =
    if s.blobs.lookup digest = some .pending then 1 else 0
  spooled : s.spooled = total Upload.bytesHeld s.uploads
  spoolFiles : s.spoolFiles = total (fun u => if u.holdsFile then 1 else 0) s.uploads

variable {s t : State}

theorem init_inv : init.Inv where
  numbered q u h := by simp [init] at h
  next := rfl
  opened q := by simp [init, Order.new]
  finished q := by simp [init]
  pending digest := by simp [init]
  spooled := rfl
  spoolFiles := rfl

/-- A step that touches no upload and no blob. -/
theorem Inv.of_same (h : s.Inv) (huploads : t.uploads = s.uploads) (hblobs : t.blobs = s.blobs)
    (hspooled : t.spooled = s.spooled) (hfiles : t.spoolFiles = s.spoolFiles) (horder : t.blobOrder = s.blobOrder)
    (hfinished : t.finished = s.finished) : t.Inv := by
  obtain ⟨h₁, h₂, h₃, h₄, h₅, h₆, h₇⟩ := h
  constructor <;> simp only [huploads, hblobs, hspooled, hfiles, horder, hfinished] <;> assumption

/-! ## Steps -/

theorem pendingFor_iff {digest : Text} {u : Upload} :
    Upload.PendingFor digest u = true ↔ u.digest = digest ∧ u.phase = .uploading := by
  simp [Upload.PendingFor, Upload.unrecorded]

theorem not_pending {digest : Text} (hb : s.accepted digest = false) :
    s.blobs.lookup digest ≠ some .pending := by
  simp only [accepted, Bool.or_eq_false_iff, decide_eq_false_iff_not] at hb
  exact hb.1

theorem Inv.accept (h : s.Inv) (i : Nat) (p : Put) (length : Nat) : (s.accept i p length).Inv := by
  unfold State.accept
  split
  · exact h.of_same rfl rfl rfl rfl rfl rfl
  · next hb =>
    have hfree : s.blobs.lookup p.digest ≠ some .pending := not_pending (by simpa using hb)
    have hget : ∀ (q : Nat), (s.uploads ++ [⟨p.digest, length, s.blobOrder.begin.1, .uploading⟩] : List Upload)[q]? =
        if q = s.uploads.length then some ⟨p.digest, length, s.uploads.length, .uploading⟩ else s.uploads[q]? := by
      intro q
      rw [List.getElem?_append, ← h.next]
      split
      · next hlt => rw [if_neg (by omega)]
      · next hge =>
        split
        · next he => simp [he, Order.begin]
        · next hne =>
          rw [h.next] at hge hne ⊢
          rw [List.getElem?_eq_none (by simp; omega), List.getElem?_eq_none (by omega)]
    refine ⟨?_, ?_, ?_, ?_, ?_, ?_, ?_⟩
    · intro q u hu
      rw [hget] at hu
      split at hu
      · next he =>
        obtain rfl := Option.some.inj hu
        exact he.symm
      · exact h.numbered q u hu
    · simp [Order.begin, h.next]
    · intro q
      rw [Order.mem_opened_begin, h.opened, hget, h.next]
      by_cases hq : q = s.uploads.length
      · simp [hq]
      · simp [hq]
    · intro q
      show s.finished.count q = _
      rw [h.finished, hget]
      by_cases hq : q = s.uploads.length
      · simp [hq]
      · simp [hq]
    · intro digest
      have hold := h.pending digest
      show total _ (_ ++ [_]) = if (AList.insert _ _ _).lookup digest = _ then _ else _
      rw [total_concat, hold, Assoc.lookup_insert_eq_ite]
      by_cases hd : digest = p.digest
      · subst hd
        simp [hfree, Upload.PendingFor, Upload.unrecorded]
      · simp [hd, Ne.symm hd, Upload.PendingFor]
    · show s.spooled + length = total _ (_ ++ [_])
      rw [total_concat, h.spooled]
      rfl
    · show s.spoolFiles + 1 = total _ (_ ++ [_])
      rw [total_concat, h.spoolFiles]
      rfl

section SetUpload

variable (i : Nat) (u : Upload) (phase : UploadPhase)

@[simp] theorem setUpload_blobs : (s.setUpload i u phase).blobs = s.blobs := rfl
@[simp] theorem setUpload_spooled : (s.setUpload i u phase).spooled = s.spooled := rfl
@[simp] theorem setUpload_spoolFiles : (s.setUpload i u phase).spoolFiles = s.spoolFiles := rfl
@[simp] theorem setUpload_blobOrder : (s.setUpload i u phase).blobOrder = s.blobOrder := rfl
@[simp] theorem setUpload_finished : (s.setUpload i u phase).finished = s.finished := rfl

end SetUpload

/-- A task's step: one upload's contribution changes, and the books with it. -/
theorem Inv.setUpload (h : s.Inv) {i : Nat} {u : Upload} (hu : s.uploads[i]? = some u) {phase : UploadPhase}
    (hlive : u.phase ≠ .finished) (huploads : t.uploads = s.uploads.set i { u with phase })
    (hnext : t.blobOrder.next = s.blobOrder.next)
    (hopened : ∀ q, q ∈ t.blobOrder.opened ↔ q ∈ s.blobOrder.opened ∧ (q = i → phase ≠ .finished))
    (hfinished : ∀ q, t.finished.count q = s.finished.count q + if q = i ∧ phase = .finished then 1 else 0)
    (hpending : ∀ digest, (if t.blobs.lookup digest = some .pending then (1 : Int) else 0) =
      (if s.blobs.lookup digest = some .pending then 1 else 0) - (if Upload.PendingFor digest u then 1 else 0) +
        if Upload.PendingFor digest { u with phase } then 1 else 0)
    (hspooled : t.spooled = s.spooled - u.bytesHeld + ({ u with phase } : Upload).bytesHeld)
    (hfiles : t.spoolFiles = s.spoolFiles - (if u.holdsFile then 1 else 0) +
      if ({ u with phase } : Upload).holdsFile then 1 else 0) : t.Inv := by
  have hget : ∀ (q : Nat), t.uploads[q]? = if q = i then some { u with phase } else s.uploads[q]? := by
    intro q
    rw [huploads, getElem?_set_of_some hu]
  refine ⟨?_, ?_, ?_, ?_, ?_, ?_, ?_⟩
  · intro q u' hu'
    rw [hget] at hu'
    split at hu'
    · next hq =>
      obtain rfl := Option.some.inj hu'
      exact (h.numbered i u hu).trans hq.symm
    · exact h.numbered q u' hu'
  · rw [hnext, h.next, huploads, List.length_set]
  · intro q
    rw [hopened, h.opened, hget]
    by_cases hq : q = i
    · subst hq
      simp [hu, hlive]
    · simp [hq]
  · intro q
    rw [hfinished, h.finished, hget]
    by_cases hq : q = i
    · subst hq
      simp [hu, hlive]
    · simp [hq]
  · intro digest
    rw [huploads, total_set _ hu, h.pending, hpending]
  · rw [huploads, total_set _ hu, ← h.spooled, hspooled]
  · rw [huploads, total_set _ hu, ← h.spoolFiles, hfiles]

theorem Inv.uploadStep (h : s.Inv) {i : Nat} {u : Upload} (hu : s.uploads[i]? = some u) {event : UploadEvent}
    (hs : s.uploadStep i u event = some t) : t.Inv := by
  have hpendingOf : ∀ digest, u.phase = .uploading → u.digest = digest → s.blobs.lookup digest = some .pending := by
    intro digest hphase hd
    by_contra hne
    have htotal := h.pending digest
    rw [if_neg hne, total_indicator] at htotal
    have hzero : s.uploads.countP (Upload.PendingFor digest) = 0 := by omega
    exact List.countP_eq_zero.1 hzero u (List.mem_of_getElem? hu) (pendingFor_iff.2 ⟨hd, hphase⟩)
  -- a step that records nothing
  have hunmarked : ∀ {phase}, u.unrecorded = false → ({ u with phase } : Upload).unrecorded = false → ∀ digest,
      (if s.blobs.lookup digest = some .pending then (1 : Int) else 0) =
        (if s.blobs.lookup digest = some .pending then 1 else 0) - (if Upload.PendingFor digest u then 1 else 0) +
          if Upload.PendingFor digest { u with phase } then 1 else 0 := by
    intro phase hu hu' digest
    simp [Upload.PendingFor, hu, hu']
  cases event with
  | record done =>
    simp only [State.uploadStep, Option.ite_none_right_eq_some, Option.some.injEq] at hs
    obtain ⟨hphase, rfl⟩ := hs
    refine h.setUpload hu (by simp [hphase]) rfl rfl (by simp) (by simp) (fun digest => ?_) ?_ ?_
    · show (if (AList.insert _ _ _).lookup digest = _ then _ else _) = _
      rw [Assoc.lookup_insert_eq_ite]
      by_cases hd : digest = u.digest
      · subst hd
        rw [hpendingOf _ hphase rfl]
        cases done <;> simp [Upload.PendingFor, Upload.unrecorded, hphase]
      · simp [hd, Ne.symm hd, Upload.PendingFor]
    · simp [Upload.bytesHeld, hphase]
    · simp [Upload.holdsFile, hphase]
  | freeBytes =>
    simp only [State.uploadStep, Option.ite_none_right_eq_some, Option.some.injEq] at hs
    obtain ⟨hphase, rfl⟩ := hs
    refine h.setUpload hu (by simp [hphase]) rfl rfl (by simp) (by simp) ?_ ?_ ?_
    · exact hunmarked (by simp [Upload.unrecorded, hphase]) (by simp [Upload.unrecorded])
    · simp [Upload.bytesHeld, hphase]
    · simp [Upload.holdsFile, hphase]
  | freeFile =>
    simp only [State.uploadStep, Option.ite_none_right_eq_some, Option.some.injEq] at hs
    obtain ⟨hphase, rfl⟩ := hs
    refine h.setUpload hu (by simp [hphase]) rfl rfl (by simp) (by simp) ?_ ?_ ?_
    · exact hunmarked (by simp [Upload.unrecorded, hphase]) (by simp [Upload.unrecorded])
    · simp [Upload.bytesHeld, hphase]
    · simp [Upload.holdsFile, hphase]
  | finish =>
    simp only [State.uploadStep, Option.ite_none_right_eq_some, Option.some.injEq] at hs
    obtain ⟨hphase, rfl⟩ := hs
    have hseq := h.numbered i u hu
    refine h.setUpload hu (by simp [hphase]) rfl rfl (fun q => ?_) (fun q => ?_) ?_ ?_ ?_
    · simp [hseq]
    · show (u.sequence :: s.finished).count q = _
      rw [hseq, List.count_cons]
      by_cases hq : q = i
      · simp [hq]
      · simp [hq, Ne.symm hq]
    · exact hunmarked (by simp [Upload.unrecorded, hphase]) (by simp [Upload.unrecorded])
    · simp [Upload.bytesHeld, hphase]
    · simp [Upload.holdsFile, hphase]

theorem Inv.putStep (h : s.Inv) {spoolLimit i : Nat} {p : Put} {event : PutEvent}
    (hs : s.putStep spoolLimit i p event = some t) : t.Inv := by
  have hset : ∀ phase, (s.setPut i p phase).Inv := fun _ => h.of_same rfl rfl rfl rfl rfl rfl
  have hanswer : ∀ answer, (s.answerPut i p answer).Inv := fun _ => h.of_same rfl rfl rfl rfl rfl rfl
  cases event with
  | check =>
    simp only [State.putStep, Option.ite_none_right_eq_some, Option.some.injEq] at hs
    obtain ⟨-, rfl⟩ := hs
    split
    · exact hset _
    split
    · exact hanswer _
    · exact hset _
  | loadBytes =>
    simp only [State.putStep, Option.ite_none_right_eq_some, Option.some.injEq] at hs
    obtain ⟨-, rfl⟩ := hs
    exact hset _
  | loadFiles =>
    simp only [State.putStep, Option.ite_none_right_eq_some, Option.some.injEq] at hs
    obtain ⟨-, rfl⟩ := hs
    exact hset _
  | spool result =>
    simp only [State.putStep, Option.ite_none_right_eq_some, Option.some.injEq] at hs
    obtain ⟨-, rfl⟩ := hs
    exact hset _
  | accept =>
    simp only [State.putStep] at hs
    split at hs
    · obtain rfl := Option.some.inj hs
      exact h.accept i p _
    · cases hs
  | drop =>
    simp only [State.putStep] at hs
    split at hs
    · cases hs
    · cases hs
    · obtain rfl := Option.some.inj hs
      exact hset _

theorem Inv.deferStep (h : s.Inv) {i : Nat} {d : Deferral} {event : DeferEvent}
    (hs : s.deferStep i d event = some t) : t.Inv := by
  cases event with
  | body ok =>
    simp only [State.deferStep, Option.ite_none_right_eq_some, Option.some.injEq] at hs
    obtain ⟨-, rfl⟩ := hs
    unfold takeOn
    split
    · split <;> exact h.of_same rfl rfl rfl rfl rfl rfl
    · exact h.of_same rfl rfl rfl rfl rfl rfl
  | send unreachable =>
    simp only [State.deferStep, Option.ite_none_right_eq_some, Option.some.injEq] at hs
    obtain ⟨-, rfl⟩ := hs
    exact h.of_same rfl rfl rfl rfl rfl rfl
  | finish =>
    simp only [State.deferStep, Option.ite_none_right_eq_some, Option.some.injEq] at hs
    obtain ⟨-, rfl⟩ := hs
    split <;> exact h.of_same rfl rfl rfl rfl rfl rfl

theorem Inv.request (h : s.Inv) (route : Route) : (s.request route).Inv := by
  cases route with
  | headBlob digest =>
    simp only [State.request]
    split
    · exact h.of_same rfl rfl rfl rfl rfl rfl
    · exact h
  | forward => exact h
  | _ => exact h.of_same rfl rfl rfl rfl rfl rfl

theorem Inv.step (h : s.Inv) {spoolLimit : Nat} {event : Event} (hs : s.step spoolLimit event = some t) : t.Inv := by
  cases event with
  | request method segments =>
    obtain rfl := Option.some.inj hs
    exact h.request _
  | put i event =>
    obtain ⟨p, -, hs⟩ := Option.bind_eq_some_iff.1 hs
    exact h.putStep hs
  | upload i event =>
    obtain ⟨u, hu, hs⟩ := Option.bind_eq_some_iff.1 hs
    exact h.uploadStep hu hs
  | defer i event =>
    obtain ⟨d, -, hs⟩ := Option.bind_eq_some_iff.1 hs
    exact h.deferStep hs
  | sendChange i =>
    obtain ⟨c, -, hs⟩ := Option.bind_eq_some_iff.1 hs
    obtain ⟨-, hs⟩ := Option.ite_none_right_eq_some.1 hs
    obtain rfl := Option.some.inj hs
    exact h.of_same rfl rfl rfl rfl rfl rfl

/-! ## The books -/

theorem Inv.mem_opened_iff (h : s.Inv) {q : Nat} :
    q ∈ s.blobOrder.opened ↔ q < s.blobOrder.next ∧ (s.uploads[q]?).any (·.phase = .finished) = false := by
  rw [h.opened, h.next]
  constructor
  · intro hu
    obtain ⟨u, hu, hne⟩ := hu
    exact ⟨(List.getElem?_eq_some_iff.1 hu).1, by simp [hu, hne]⟩
  · intro hq
    obtain ⟨hlt, hne⟩ := hq
    have hu := List.getElem?_eq_getElem hlt
    rw [hu] at hne
    exact ⟨_, hu, by simpa using hne⟩

theorem Inv.accounted (h : s.Inv) : s.Accounted where
  pending digest := by
    have hp := h.pending digest
    rw [total_indicator] at hp
    exact_mod_cast hp
  spooled := h.spooled
  spoolFiles := by rw [h.spoolFiles, total_indicator]
  noUnderflow := by
    rw [h.spooled, h.spoolFiles]
    refine ⟨total_nonneg fun u _ => ?_, total_nonneg fun u _ => ?_⟩
    · unfold Upload.bytesHeld
      split <;> omega
    · split <;> omega
  pendingOpen digest hd := by
    have hp := h.pending digest
    rw [if_pos hd, total_indicator] at hp
    have hpos : 0 < s.uploads.countP (Upload.PendingFor digest) := by omega
    obtain ⟨u, hu, hpending⟩ := List.countP_pos_iff.1 hpos
    obtain ⟨hdigest, hphase⟩ := pendingFor_iff.1 hpending
    obtain ⟨q, hq⟩ := List.getElem?_of_mem hu
    refine ⟨u, hu, hdigest, ?_⟩
    rw [h.numbered q u hq, h.opened]
    exact ⟨u, hq, by simp [hphase]⟩
  begun := by
    rw [h.next]
    refine List.ext_getElem (by simp) fun q hq hq' => ?_
    rw [List.getElem_map, List.getElem_range]
    exact h.numbered q _ (List.getElem?_eq_getElem _)
  finished q := by
    rw [h.finished]
    refine if_congr ?_ rfl rfl
    rw [h.mem_opened_iff, h.next]
    constructor
    · intro hany
      obtain ⟨u, hu, -⟩ := (Option.any_eq_true _ _).1 hany
      exact ⟨(List.getElem?_eq_some_iff.1 hu).1, fun hopen => by rw [hany] at hopen; cases hopen.2⟩
    · intro hq
      by_contra hany
      exact hq.2 ⟨hq.1, by simpa using hany⟩

/-- An upload that is not finished can take its next step. -/
theorem exists_uploadStep (s : State) (i : Nat) {u : Upload} (hlive : u.phase ≠ .finished) :
    ∃ event t phase, s.uploadStep i u event = some t ∧ t.uploads = s.uploads.set i { u with phase } ∧
      ({ u with phase } : Upload).remaining + 1 = u.remaining ∧ t.blobOrder.next = s.blobOrder.next := by
  cases hphase : u.phase with
  | uploading => exact ⟨.record true, _, _, if_pos hphase, rfl, by simp [Upload.remaining, hphase], rfl⟩
  | recorded => exact ⟨.freeBytes, _, _, if_pos hphase, rfl, by simp [Upload.remaining, hphase], rfl⟩
  | bytesFreed => exact ⟨.freeFile, _, _, if_pos hphase, rfl, by simp [Upload.remaining, hphase], rfl⟩
  | fileFreed => exact ⟨.finish, _, _, if_pos hphase, rfl, by simp [Upload.remaining, hphase], rfl⟩
  | finished => exact absurd hphase hlive

theorem Inv.drained (h : s.Inv) (hall : ∀ u ∈ s.uploads, u.phase = .finished) : s.Drained := by
  have hany : ∀ q < s.blobOrder.next, (s.uploads[q]?).any (·.phase = .finished) = true := by
    intro q hq
    rw [h.next] at hq
    rw [List.getElem?_eq_getElem hq]
    simpa using hall _ (List.getElem_mem hq)
  constructor
  · refine List.eq_nil_iff_forall_not_mem.2 fun q hq => ?_
    obtain ⟨hlt, hne⟩ := h.mem_opened_iff.1 hq
    rw [hany q hlt] at hne
    cases hne
  · intro q hq
    rw [h.finished, if_pos (hany q hq)]

/-- The tasks of the uploads begun can run to their ends. -/
theorem Inv.exists_drained (h : s.Inv) (spoolLimit : Nat) :
    ∃ t, Transition.Reachable (fun s event t => s.step spoolLimit event = some t) s t ∧ t.Drained ∧
      t.blobOrder.next = s.blobOrder.next := by
  suffices hs : ∀ (n : Nat) (t : State), Transition.Reachable (fun s event t => s.step spoolLimit event = some t) s t →
      t.Inv → t.blobOrder.next = s.blobOrder.next → total (fun u => u.remaining) t.uploads < n →
      ∃ t', Transition.Reachable (fun s event t => s.step spoolLimit event = some t) s t' ∧ t'.Drained ∧
        t'.blobOrder.next = s.blobOrder.next from
    hs ((total (fun u => u.remaining) s.uploads).toNat + 1) s .refl h rfl (by omega)
  intro n
  induction n with
  | zero =>
    intro t hreach hi hnext hlt
    have hnonneg : 0 ≤ total (fun u => u.remaining) t.uploads := total_nonneg fun u _ => by omega
    omega
  | succ n ih =>
    intro t hreach hi hnext hlt
    by_cases hall : ∀ u ∈ t.uploads, u.phase = .finished
    · exact ⟨t, hreach, hi.drained hall, hnext⟩
    · push Not at hall
      obtain ⟨u, hu, hlive⟩ := hall
      obtain ⟨i, hi'⟩ := List.getElem?_of_mem hu
      obtain ⟨event, t', phase, hstep, huploads, hremaining, hnext'⟩ := exists_uploadStep t i hlive
      have hs : t.step spoolLimit (.upload i event) = some t' := Option.bind_eq_some_iff.2 ⟨u, hi', hstep⟩
      refine ih t' (hreach.tail hs) (hi.step hs) (hnext'.trans hnext) ?_
      rw [huploads, total_set _ hi']
      omega

/-- **The relay's books are right in every reachable state**, and from each
the uploads begun can run to their ends, after which every number begun is
finished once. -/
theorem reachable_accounted (spoolLimit : Nat) {s : State}
    (h : Transition.Reachable (fun s event t => s.step spoolLimit event = some t) init s) :
    s.Accounted ∧ ∃ t, Transition.Reachable (fun s event t => s.step spoolLimit event = some t) s t ∧ t.Drained ∧
      t.blobOrder.next = s.blobOrder.next := by
  have hi : s.Inv := h.invariant Inv init_inv fun _ _ _ hi hs => hi.step hs
  exact ⟨hi.accounted, hi.exists_drained spoolLimit⟩

/-- One digest put twice at once, and once more after its upload failed. -/
def putThrice : List Event :=
  let digest := String.ofList (List.replicate 64 'a')
  let spool : PutEvent := .spool (some (List.replicate 64 'a', 10))
  [.request .put ["v1", "blobs", digest], .request .put ["v1", "blobs", digest],
    .put 0 .check, .put 1 .check, .put 0 .loadBytes, .put 1 .loadBytes, .put 0 spool, .put 1 spool,
    .put 1 .accept, .put 0 .accept, .upload 0 (.record false), .request .put ["v1", "blobs", digest],
    .put 2 .check, .put 2 .loadBytes, .put 2 .loadFiles, .upload 0 .freeBytes, .put 2 .loadBytes, .put 2 spool,
    .put 2 .accept, .upload 0 .freeFile]

theorem putThrice_accounted : ∃ s : State, s.uploads.map (·.phase) = [.fileFreed, .uploading] ∧ s.spooled = 10 ∧
    s.Accounted ∧ ∃ t, Transition.Reachable (fun s event t => s.step 10 event = some t) s t ∧ t.Drained ∧
      t.blobOrder.next = s.blobOrder.next := by
  have hrun : (putThrice.foldlM (fun (s : State) event => s.step 10 event) init).any (fun s =>
      decide (s.uploads.map (·.phase) = [.fileFreed, .uploading] ∧ s.spooled = 10)) = true := by
    decide +kernel
  obtain ⟨s, hs, hfinal⟩ := (Option.any_eq_true _ _).1 hrun
  obtain ⟨hphases, hspooled⟩ := of_decide_eq_true hfinal
  exact ⟨s, hphases, hspooled, reachable_accounted 10 (Transition.Run.foldlM _ _ _ hs)⟩

end State

end Bellows.Relay
