/-
The relay keeps publication order: a record goes to the server only after the
blobs accepted before it, a lease release only after the blobs and records
accepted before it, any other change only after the blobs accepted before it.

A horizon read after a request's arrival is above the numbers of what was
accepted before the arrival (`DeferralOk`), and below a horizon that is passed
nothing is open. Lease requests and use marks wait for nothing.
-/
import Bellows.Relay.Accounting

namespace Bellows.Relay

open Tally

namespace State

/-! ## What is owed before a request is sent -/

/-- Each blob of `b` had an upload begun by then, and every one of them has
recorded its outcome. -/
def BlobsFinished (s : State) (b : Before) : Prop :=
  ∀ digest ∈ b.blobs, (∃ q < b.uploads, ∃ u, s.uploads[q]? = some u ∧ u.digest = digest) ∧
    ∀ q < b.uploads, ∀ u, s.uploads[q]? = some u → u.digest = digest → u.unrecorded = false

/-- The last attempt to send each record of `b` has ended. -/
def RecordsFinished (s : State) (b : Before) : Prop :=
  ∀ i ∈ b.records, ∃ d, s.deferred[i]? = some d ∧ d.kind = .record ∧ d.phase = .finished

/-- What is finished before a deferred request is sent. -/
def Due (s : State) (d : Deferral) : Prop :=
  match d.kind with
  | .record => s.BlobsFinished d.before
  | .use => True
  | .release => s.BlobsFinished d.before ∧ s.RecordsFinished d.before

end State

/-- Whatever is sent in this step is sent in order. -/
structure InOrder (m : Transition.Move State Event) : Prop where
  deferred : ∀ i unreachable d, m.label = .defer i (.send unreachable) → m.pre.deferred[i]? = some d → m.pre.Due d
  change : ∀ i c, m.label = .sendChange i → m.pre.changes[i]? = some c → m.pre.BlobsFinished c.before

namespace State

/-! ## What a step keeps -/

/-- Uploads and deferred requests stay in their places, and what is finished
stays finished. -/
structure Evolves (s t : State) : Prop where
  uploads : ∀ (q : Nat) (u : Upload), s.uploads[q]? = some u → ∃ u', t.uploads[q]? = some u' ∧ u'.digest = u.digest ∧
    (u.unrecorded = false → u'.unrecorded = false)
  deferred : ∀ (i : Nat) (d : Deferral), s.deferred[i]? = some d → ∃ d', t.deferred[i]? = some d' ∧ d'.kind = d.kind ∧
    (d.phase = .finished → d'.phase = .finished) ∧ ∀ q, d.sequence = some q → d'.sequence = some q

/-- An upload of the digest is among the first `n`. -/
def Begun (s : State) (digest : Text) (n : Nat) : Prop :=
  ∃ q < n, ∃ u, s.uploads[q]? = some u ∧ u.digest = digest

/-- What a request found accepted had been begun. -/
structure BeforeOk (s : State) (b : Before) : Prop where
  uploads : b.uploads ≤ s.uploads.length
  blobs : ∀ digest ∈ b.blobs, s.Begun digest b.uploads
  records : ∀ i ∈ b.records, i ∈ s.records

/-- The numbers of the records of `b` are below the horizon. -/
def RecordsBelow (s : State) (b : Before) (horizon : Nat) : Prop :=
  ∀ i ∈ b.records, ∃ d q, s.deferred[i]? = some d ∧ d.sequence = some q ∧ q < horizon

/-- A deferred request that waits has horizons above all it must wait for; one
that was sent before had waited. -/
structure DeferralOk (s : State) (d : Deferral) : Prop where
  before : s.BeforeOk d.before
  waiting : ∀ blobHorizon recordHorizon, d.phase = .waiting blobHorizon recordHorizon →
    d.before.uploads ≤ blobHorizon ∧ s.RecordsBelow d.before recordHorizon
  retrying : ∀ attempts, d.phase = .retrying attempts → s.Due d

variable {s t : State}

theorem Evolves.refl (s : State) : s.Evolves s :=
  ⟨fun _ u hu => ⟨u, hu, rfl, fun h => h⟩, fun _ d hd => ⟨d, hd, rfl, fun h => h, fun _ h => h⟩⟩

theorem Begun.evolves {digest : Text} {n : Nat} (h : s.Begun digest n) (he : s.Evolves t) : t.Begun digest n := by
  obtain ⟨q, hq, u, hu, hd⟩ := h
  obtain ⟨u', hu', hd', -⟩ := he.uploads q u hu
  exact ⟨q, hq, u', hu', hd'.trans hd⟩

theorem BlobsFinished.evolves {b : Before} (h : s.BlobsFinished b) (hb : b.uploads ≤ s.uploads.length)
    (he : s.Evolves t) : t.BlobsFinished b := by
  intro digest hd
  obtain ⟨hbegun, hall⟩ := h digest hd
  refine ⟨Begun.evolves hbegun he, fun q hq u' hu' hd' => ?_⟩
  have hu := List.getElem?_eq_getElem (l := s.uploads) (i := q) (by omega)
  obtain ⟨u'', hu'', hdigest, hrecorded⟩ := he.uploads q _ hu
  obtain rfl := Option.some.inj (hu''.symm.trans hu')
  exact hrecorded (hall q hq _ hu (hdigest.symm.trans hd'))

theorem RecordsFinished.evolves {b : Before} (h : s.RecordsFinished b) (he : s.Evolves t) : t.RecordsFinished b := by
  intro i hi
  obtain ⟨d, hd, hkind, hphase⟩ := h i hi
  obtain ⟨d', hd', hkind', hphase', -⟩ := he.deferred i d hd
  exact ⟨d', hd', hkind'.trans hkind, hphase' hphase⟩

theorem RecordsBelow.evolves {b : Before} {horizon : Nat} (h : s.RecordsBelow b horizon) (he : s.Evolves t) :
    t.RecordsBelow b horizon := by
  intro i hi
  obtain ⟨d, q, hd, hq, hlt⟩ := h i hi
  obtain ⟨d', hd', -, -, hq'⟩ := he.deferred i d hd
  exact ⟨d', q, hd', hq' q hq, hlt⟩

theorem Evolves.length_le (he : s.Evolves t) : s.uploads.length ≤ t.uploads.length := by
  by_contra hlt
  have hu := List.getElem?_eq_getElem (l := s.uploads) (i := t.uploads.length) (by omega)
  obtain ⟨u', hu', -⟩ := he.uploads _ _ hu
  simp at hu'

theorem BeforeOk.evolves {b : Before} (h : s.BeforeOk b) (he : s.Evolves t) (hr : ∀ i ∈ s.records, i ∈ t.records) :
    t.BeforeOk b where
  uploads := h.uploads.trans he.length_le
  blobs digest hd := (h.blobs digest hd).evolves he
  records i hi := hr i (h.records i hi)

theorem Due.evolves {d : Deferral} (h : s.Due d) (hb : s.BeforeOk d.before) (he : s.Evolves t) : t.Due d := by
  unfold Due at h ⊢
  split at h
  · exact h.evolves hb.uploads he
  · trivial
  · exact ⟨h.1.evolves hb.uploads he, h.2.evolves he⟩

theorem DeferralOk.evolves {d : Deferral} (h : s.DeferralOk d) (he : s.Evolves t)
    (hr : ∀ i ∈ s.records, i ∈ t.records) : t.DeferralOk d where
  before := h.before.evolves he hr
  waiting _ _ hphase := ⟨(h.waiting _ _ hphase).1, (h.waiting _ _ hphase).2.evolves he⟩
  retrying attempts hphase := (h.retrying attempts hphase).evolves h.before he

/-! ## The invariant -/

structure Published (s : State) : Prop where
  books : s.Inv
  known : ∀ digest, s.accepted digest = true → s.Begun digest s.uploads.length
  answered : ∀ digest ∈ s.answered, s.Begun digest s.uploads.length
  deferrals : ∀ (i : Nat) (d : Deferral), s.deferred[i]? = some d → s.DeferralOk d
  changes : ∀ (i : Nat) (c : Change), s.changes[i]? = some c → s.BeforeOk c.before ∧ c.before.uploads ≤ c.horizon
  /-- A record taken on is finished, or its number is open. -/
  records : ∀ i ∈ s.records, ∃ d q, s.deferred[i]? = some d ∧ d.kind = .record ∧ d.sequence = some q ∧
    (d.phase = .finished ∨ q ∈ s.recordOrder.opened)
  numbered : ∀ (i : Nat) (d : Deferral) q, s.deferred[i]? = some d → d.sequence = some q →
    q < s.recordOrder.next ∧ d.phase ≠ .reading
  unique : ∀ (i j : Nat) (d d' : Deferral) q, s.deferred[i]? = some d → s.deferred[j]? = some d' →
    d.sequence = some q → d'.sequence = some q → i = j

theorem init_published : init.Published where
  books := init_inv
  known digest h := by simp [init, accepted] at h
  answered digest h := by cases h
  deferrals i d h := by simp [init] at h
  changes i c h := by simp [init] at h
  records i h := by cases h
  numbered i d q h := by simp [init] at h
  unique i j d d' q h := by simp [init] at h

/-! ### Sending -/

theorem Inv.blobsFinished (h : s.Inv) {b : Before} (hb : s.BeforeOk b) {horizon : Nat} (hle : b.uploads ≤ horizon)
    (hp : s.blobOrder.passed horizon = true) : s.BlobsFinished b := by
  intro digest hd
  refine ⟨hb.blobs digest hd, fun q hq u hu _ => ?_⟩
  have hclosed : q ∉ s.blobOrder.opened := Order.not_mem_of_passed hp (by omega)
  rw [h.opened] at hclosed
  have hphase : u.phase = .finished := by
    by_contra hne
    exact hclosed ⟨u, hu, hne⟩
  simp [Upload.unrecorded, hphase]

theorem Published.recordsFinished (h : s.Published) {b : Before} (hb : s.BeforeOk b) {horizon : Nat}
    (hbelow : s.RecordsBelow b horizon) (hp : s.recordOrder.passed horizon = true) : s.RecordsFinished b := by
  intro i hi
  obtain ⟨d, q, hd, hkind, hq, hend⟩ := h.records i (hb.records i hi)
  obtain ⟨d', q', hd', hq', hlt⟩ := hbelow i hi
  obtain rfl := Option.some.inj (hd.symm.trans hd')
  obtain rfl := Option.some.inj (hq.symm.trans hq')
  exact ⟨d, hd, hkind, hend.resolve_right (Order.not_mem_of_passed hp hlt)⟩

theorem Published.due (h : s.Published) {i : Nat} {d : Deferral} (hd : s.deferred[i]? = some d)
    (hsend : s.mayBeSent d = true) : s.Due d := by
  have hok := h.deferrals i d hd
  unfold mayBeSent at hsend
  split at hsend
  · next blobHorizon recordHorizon hphase =>
    obtain ⟨hle, hbelow⟩ := hok.waiting _ _ hphase
    unfold Due
    split
    · next hkind =>
      rw [hkind] at hsend
      exact h.books.blobsFinished hok.before hle hsend
    · trivial
    · next hkind =>
      rw [hkind] at hsend
      obtain ⟨hblobs, hrecords⟩ := Bool.and_eq_true_iff.1 hsend
      exact ⟨h.books.blobsFinished hok.before hle hblobs, h.recordsFinished hok.before hbelow hrecords⟩
  · next attempts hphase => exact hok.retrying attempts hphase
  · cases hsend

/-! ### Uploads and puts -/

theorem Begun.mono {digest : Text} {n m : Nat} (h : s.Begun digest n) (hle : n ≤ m) : s.Begun digest m := by
  obtain ⟨q, hq, hu⟩ := h
  exact ⟨q, by omega, hu⟩

theorem begun_of_mem {q : Nat} {u : Upload} (h : s.uploads[q]? = some u) : s.Begun u.digest s.uploads.length :=
  ⟨q, (List.getElem?_eq_some_iff.1 h).1, u, h, rfl⟩

/-- A step that leaves the deferred requests and the changes alone. -/
theorem Published.frame (h : s.Published) (hbooks : t.Inv) (he : s.Evolves t) (hdeferred : t.deferred = s.deferred)
    (hchanges : t.changes = s.changes) (hrecords : t.records = s.records) (horder : t.recordOrder = s.recordOrder)
    (hknown : ∀ digest, t.accepted digest = true → s.accepted digest = true ∨ t.Begun digest t.uploads.length)
    (hanswered : ∀ digest ∈ t.answered, digest ∈ s.answered ∨ t.Begun digest t.uploads.length) : t.Published where
  books := hbooks
  known digest hd := (hknown digest hd).elim
    (fun hd => ((h.known digest hd).evolves he).mono he.length_le) fun hb => hb
  answered digest hd := (hanswered digest hd).elim
    (fun hd => ((h.answered digest hd).evolves he).mono he.length_le) fun hb => hb
  deferrals i d hd := by
    rw [hdeferred] at hd
    exact (h.deferrals i d hd).evolves he fun i hi => by rwa [hrecords]
  changes i c hc := by
    rw [hchanges] at hc
    obtain ⟨hb, hle⟩ := h.changes i c hc
    exact ⟨hb.evolves he fun i hi => by rwa [hrecords], hle⟩
  records i hi := by
    rw [hrecords] at hi
    rw [hdeferred, horder]
    exact h.records i hi
  numbered i d q hd := by
    rw [hdeferred] at hd
    rw [horder]
    exact h.numbered i d q hd
  unique i j d d' q hd hd' := by
    rw [hdeferred] at hd hd'
    exact h.unique i j d d' q hd hd'

theorem Evolves.of_eq (huploads : t.uploads = s.uploads) (hdeferred : t.deferred = s.deferred) : s.Evolves t := by
  constructor
  · intro q u hu
    exact ⟨u, by rwa [huploads], rfl, fun h => h⟩
  · intro i d hd
    exact ⟨d, by rwa [hdeferred], rfl, fun h => h, fun _ h => h⟩

theorem Published.setPut (h : s.Published) (i : Nat) (p : Put) (phase : PutPhase) : (s.setPut i p phase).Published :=
  h.frame (h.books.of_same rfl rfl rfl rfl rfl rfl) (.of_eq rfl rfl) rfl rfl rfl rfl (fun _ => .inl) fun _ => .inl

theorem Published.answerPut (h : s.Published) (i : Nat) (p : Put) (answer : PutAnswer)
    (hp : s.accepted p.digest = true) : (s.answerPut i p answer).Published := by
  refine h.frame (h.books.of_same rfl rfl rfl rfl rfl rfl) (.of_eq rfl rfl) rfl rfl rfl rfl (fun _ => .inl) ?_
  intro digest hd
  rcases List.mem_cons.1 hd with rfl | hd
  · exact .inr (h.known _ hp)
  · exact .inl hd

theorem Published.accept (h : s.Published) (i : Nat) (p : Put) (length : Nat) : (s.accept i p length).Published := by
  have hbooks := h.books.accept i p length
  unfold State.accept at hbooks ⊢
  split
  · next hp => exact h.answerPut i p _ hp
  · next hp =>
    rw [if_neg hp] at hbooks
    have hnew := begun_of_mem (s := { s.answerPut i p .created with
      blobs := s.blobs.insert p.digest .pending
      spooled := s.spooled + length
      spoolFiles := s.spoolFiles + 1
      blobOrder := s.blobOrder.begin.2
      uploads := s.uploads ++ [⟨p.digest, length, s.blobOrder.begin.1, .uploading⟩] }) List.getElem?_concat_length
    refine h.frame hbooks ⟨?_, ?_⟩ rfl rfl rfl rfl ?_ ?_
    · intro q u hu
      exact ⟨u, by rw [List.getElem?_append_left (List.getElem?_eq_some_iff.1 hu).1]; exact hu, rfl, fun h => h⟩
    · intro i d hd
      exact ⟨d, hd, rfl, fun h => h, fun _ h => h⟩
    · intro digest hd
      by_cases hdigest : digest = p.digest
      · exact .inr (hdigest ▸ hnew)
      · refine .inl ?_
        simpa [State.accepted, Assoc.lookup_insert_eq_ite, hdigest] using hd
    · intro digest hd
      rcases List.mem_cons.1 hd with rfl | hd
      · exact .inr hnew
      · exact .inl hd

theorem Published.putStep (h : s.Published) {spoolLimit i : Nat} {p : Put} {event : PutEvent}
    (hs : s.putStep spoolLimit i p event = some t) : t.Published := by
  cases event with
  | check =>
    simp only [State.putStep, Option.ite_none_right_eq_some, Option.some.injEq] at hs
    obtain ⟨-, rfl⟩ := hs
    split
    · exact h.setPut i p _
    split
    · next hp => exact h.answerPut i p _ hp
    · exact h.setPut i p _
  | accept =>
    simp only [State.putStep] at hs
    split at hs
    · obtain rfl := Option.some.inj hs
      exact h.accept i p _
    · cases hs
  | drop =>
    simp only [State.putStep] at hs
    split at hs
    · cases hs
    · cases hs
    · obtain rfl := Option.some.inj hs
      exact h.setPut i p _
  | _ =>
    simp only [State.putStep, Option.ite_none_right_eq_some, Option.some.injEq] at hs
    obtain ⟨-, rfl⟩ := hs
    exact h.setPut i p _

theorem evolves_setUpload {i : Nat} {u : Upload} (hu : s.uploads[i]? = some u) {phase : UploadPhase}
    (hphase : phase ≠ .uploading) (ht : t.uploads = (s.setUpload i u phase).uploads)
    (hdeferred : t.deferred = s.deferred) : s.Evolves t := by
  constructor
  · intro q u' hu'
    rw [ht, State.setUpload, getElem?_set_of_some hu]
    split
    · next hq =>
      subst hq
      obtain rfl := Option.some.inj (hu.symm.trans hu')
      exact ⟨_, rfl, rfl, fun _ => by simp [Upload.unrecorded, hphase]⟩
    · exact ⟨u', hu', rfl, fun h => h⟩
  · intro j d hd
    exact ⟨d, by rwa [hdeferred], rfl, fun h => h, fun _ h => h⟩

theorem Published.uploadStep (h : s.Published) {i : Nat} {u : Upload} (hu : s.uploads[i]? = some u)
    {event : UploadEvent} (hs : s.uploadStep i u event = some t) : t.Published := by
  have hbooks := h.books.uploadStep hu hs
  cases event with
  | record done =>
    simp only [State.uploadStep, Option.ite_none_right_eq_some, Option.some.injEq] at hs
    obtain ⟨-, rfl⟩ := hs
    have he := evolves_setUpload (t := { s.setUpload i u .recorded with
      blobs := s.blobs.insert u.digest (if done then .done else .failed) }) hu (by simp) rfl rfl
    refine h.frame hbooks he rfl rfl rfl rfl (fun digest hd => ?_) fun _ => .inl
    by_cases hdigest : digest = u.digest
    · subst hdigest
      exact .inr (((begun_of_mem hu).evolves he).mono he.length_le)
    · refine .inl ?_
      simpa [State.accepted, Assoc.lookup_insert_eq_ite, hdigest] using hd
  | _ =>
    simp only [State.uploadStep, Option.ite_none_right_eq_some, Option.some.injEq] at hs
    obtain ⟨-, rfl⟩ := hs
    exact h.frame hbooks (evolves_setUpload hu (by simp) rfl rfl) rfl rfl rfl rfl (fun _ => .inl) fun _ => .inl

/-! ### Deferred requests -/

theorem evolves_set {i : Nat} {d d' : Deferral} (hd : s.deferred[i]? = some d) (hkind : d'.kind = d.kind)
    (hlive : d.phase ≠ .finished) (hseq : ∀ q, d.sequence = some q → d'.sequence = some q)
    (huploads : t.uploads = s.uploads) (ht : t.deferred = s.deferred.set i d') : s.Evolves t := by
  constructor
  · intro q u hu
    exact ⟨u, by rwa [huploads], rfl, fun h => h⟩
  · intro j e he
    rw [ht, getElem?_set_of_some hd]
    split
    · next hj =>
      subst hj
      obtain rfl := Option.some.inj (hd.symm.trans he)
      exact ⟨d', rfl, hkind, fun hphase => absurd hphase hlive, hseq⟩
    · exact ⟨e, he, rfl, fun h => h, fun _ h => h⟩

/-- A deferred request goes on to `phase`; a record's number stays open unless
it is finished with. -/
theorem Published.advance (h : s.Published) {i : Nat} {d : Deferral} (hd : s.deferred[i]? = some d)
    (phase : DeferPhase) (order : Order) (hnext : order.next = s.recordOrder.next)
    (hopened : ∀ q ∈ s.recordOrder.opened, q ∈ order.opened ∨ (phase = .finished ∧ d.sequence = some q))
    (hlive : d.phase ≠ .finished) (hreading : phase ≠ .reading)
    (hwaiting : ∀ blobHorizon recordHorizon, phase = .waiting blobHorizon recordHorizon →
      d.before.uploads ≤ blobHorizon ∧ s.RecordsBelow d.before recordHorizon)
    (hretrying : ∀ attempts, phase = .retrying attempts → s.Due d) :
    Published { s.setDeferral i d phase with recordOrder := order } := by
  have he : s.Evolves { s.setDeferral i d phase with recordOrder := order } :=
    evolves_set hd (rfl : ({ d with phase } : Deferral).kind = d.kind) hlive (fun _ h => h) rfl rfl
  have hget : ∀ j : Nat, (s.setDeferral i d phase).deferred[j]? =
      if j = i then some { d with phase } else s.deferred[j]? := getElem?_set_of_some hd
  refine ⟨h.books.of_same rfl rfl rfl rfl rfl rfl, h.known, h.answered, ?_, ?_, ?_, ?_, ?_⟩
  · intro j e hj
    have hok : s.DeferralOk { d with phase } := ⟨(h.deferrals i d hd).before, hwaiting, hretrying⟩
    have hj : (s.setDeferral i d phase).deferred[j]? = some e := hj
    rw [hget] at hj
    split at hj
    · obtain rfl := Option.some.inj hj
      exact hok.evolves he fun _ h => h
    · exact (h.deferrals j e hj).evolves he fun _ h => h
  · intro j c hc
    obtain ⟨hb, hle⟩ := h.changes j c hc
    exact ⟨hb.evolves he fun _ h => h, hle⟩
  · intro j hj
    obtain ⟨e, q, hje, hkind, hq, hend⟩ := h.records j hj
    by_cases hji : j = i
    · subst hji
      obtain rfl := Option.some.inj (hd.symm.trans hje)
      refine ⟨{ d with phase }, q, (hget j).trans (if_pos rfl), hkind, hq, ?_⟩
      exact (hopened q (hend.resolve_left hlive)).elim .inr fun hf => .inl hf.1
    · refine ⟨e, q, (hget j).trans ((if_neg hji).trans hje), hkind, hq, hend.imp_right fun hopen => ?_⟩
      refine (hopened q hopen).resolve_right fun hf => hji ?_
      exact h.unique j i e d q hje hd hq hf.2
  · intro j e q hj hq
    have hj : (s.setDeferral i d phase).deferred[j]? = some e := hj
    rw [hget] at hj
    show q < order.next ∧ _
    rw [hnext]
    split at hj
    · obtain rfl := Option.some.inj hj
      exact ⟨(h.numbered i d q hd hq).1, hreading⟩
    · exact h.numbered j e q hj hq
  · have hold : ∀ (j : Nat) e, (s.setDeferral i d phase).deferred[j]? = some e →
        ∃ e', s.deferred[j]? = some e' ∧ e'.sequence = e.sequence := by
      intro j e hj
      rw [hget] at hj
      split at hj
      · next hji =>
        obtain rfl := Option.some.inj hj
        exact ⟨d, hji ▸ hd, rfl⟩
      · exact ⟨e, hj, rfl⟩
    intro j k e e' q hj hk hq hq'
    obtain ⟨e₁, hj₁, hs₁⟩ := hold j e hj
    obtain ⟨e₂, hk₂, hs₂⟩ := hold k e' hk
    exact h.unique j k e₁ e₂ q hj₁ hk₂ (hs₁.trans hq) (hs₂.trans hq')

theorem Published.recordsBelow_next (h : s.Published) {b : Before} (hb : s.BeforeOk b) :
    s.RecordsBelow b s.recordOrder.next := by
  intro i hi
  obtain ⟨d, q, hd, -, hq, -⟩ := h.records i (hb.records i hi)
  exact ⟨d, q, hd, hq, (h.numbered i d q hd hq).1⟩

theorem Published.takeOn (h : s.Published) {i : Nat} {d : Deferral} (hd : s.deferred[i]? = some d)
    (hphase : d.phase = .reading) : (s.takeOn i d).Published := by
  have hbefore := (h.deferrals i d hd).before
  have hhorizons : d.before.uploads ≤ s.blobOrder.horizon ∧ s.RecordsBelow d.before s.recordOrder.horizon :=
    ⟨by rw [Order.horizon, h.books.next]; exact hbefore.uploads, h.recordsBelow_next hbefore⟩
  have hlive : d.phase ≠ .finished := by simp [hphase]
  have hnone : d.sequence = none := by
    by_contra hne
    obtain ⟨q, hq⟩ := Option.ne_none_iff_exists'.1 hne
    exact (h.numbered i d q hd hq).2 hphase
  unfold State.takeOn
  split
  · next hkind =>
    have hold : ∀ (j : Nat) e q, s.deferred[j]? = some e → e.sequence = some q → q < s.recordOrder.next ∧ j ≠ i := by
      intro j e q hj hq
      refine ⟨(h.numbered j e q hj hq).1, fun hji => ?_⟩
      subst hji
      obtain rfl := Option.some.inj (hd.symm.trans hj)
      rw [hnone] at hq
      cases hq
    have he : s.Evolves { s with
        recordOrder := s.recordOrder.begin.2
        records := i :: s.records
        deferred := s.deferred.set i { d with
          phase := .waiting s.blobOrder.horizon s.recordOrder.horizon
          sequence := some s.recordOrder.begin.1 } } := by
      refine evolves_set hd ?_ hlive (fun q hq => ?_) rfl rfl
      · rfl
      · rw [hnone] at hq
        cases hq
    have hrecords : ∀ j ∈ s.records, j ∈ i :: s.records := fun j hj => List.mem_cons_of_mem i hj
    refine ⟨h.books.of_same rfl rfl rfl rfl rfl rfl, h.known, h.answered, ?_, ?_, ?_, ?_, ?_⟩
    · intro j e hj
      rw [getElem?_set_of_some hd] at hj
      split at hj
      · obtain rfl := Option.some.inj hj
        refine DeferralOk.evolves (s := s) ⟨hbefore, fun blobHorizon recordHorizon hw => ?_, fun _ hr => ?_⟩ he hrecords
        · obtain ⟨rfl, rfl⟩ := DeferPhase.waiting.inj hw
          exact hhorizons
        · cases hr
      · exact (h.deferrals j e hj).evolves he hrecords
    · intro j c hc
      obtain ⟨hb, hle⟩ := h.changes j c hc
      exact ⟨hb.evolves he hrecords, hle⟩
    · intro j hj
      by_cases hji : j = i
      · exact ⟨_, _, (getElem?_set_of_some hd j).trans (if_pos hji), hkind, rfl, .inr (by simp [Order.begin])⟩
      · obtain ⟨e, q, hje, hk, hq, hend⟩ := h.records j ((List.mem_cons.1 hj).resolve_left hji)
        exact ⟨e, q, (getElem?_set_of_some hd j).trans ((if_neg hji).trans hje), hk, hq,
          hend.imp_right fun hopen => Order.mem_opened_begin.2 (.inl hopen)⟩
    · intro j e q hj hq
      rw [getElem?_set_of_some hd] at hj
      show q < s.recordOrder.next + 1 ∧ _
      split at hj
      · obtain rfl := Option.some.inj hj
        obtain rfl := Option.some.inj hq
        exact ⟨Nat.lt_succ_self _, by simp⟩
      · obtain ⟨hlt, hreading⟩ := h.numbered j e q hj hq
        exact ⟨by omega, hreading⟩
    · intro j k e e' q hj hk hq hq'
      rw [getElem?_set_of_some hd] at hj hk
      split at hj
      · next hji =>
        split at hk
        · next hki => rw [hji, hki]
        · obtain rfl := Option.some.inj hj
          obtain rfl := Option.some.inj hq
          exact absurd (hold k e' _ hk hq').1 (lt_irrefl _)
      · split at hk
        · obtain rfl := Option.some.inj hk
          obtain rfl := Option.some.inj hq'
          exact absurd (hold j e _ hj hq).1 (lt_irrefl _)
        · exact h.unique j k e e' q hj hk hq hq'
  · refine h.advance hd _ s.recordOrder rfl (fun q hq => .inl hq) hlive (by simp) ?_ (by simp)
    intro blobHorizon recordHorizon hw
    obtain ⟨rfl, rfl⟩ := DeferPhase.waiting.inj hw
    exact hhorizons

theorem Published.deferStep (h : s.Published) {i : Nat} {d : Deferral} (hd : s.deferred[i]? = some d)
    {event : DeferEvent} (hs : s.deferStep i d event = some t) : t.Published := by
  cases event with
  | body ok =>
    simp only [State.deferStep, Option.ite_none_right_eq_some, Option.some.injEq] at hs
    obtain ⟨hphase, rfl⟩ := hs
    split
    · exact h.takeOn hd hphase
    · exact h.advance hd .refused s.recordOrder rfl (fun q hq => .inl hq) (by simp [hphase]) (by simp) (by simp)
        (by simp)
  | send unreachable =>
    simp only [State.deferStep, Option.ite_none_right_eq_some, Option.some.injEq] at hs
    obtain ⟨hsend, rfl⟩ := hs
    have hlive : d.phase ≠ .finished := by
      intro hphase
      simp [mayBeSent, hphase] at hsend
    split
    · exact h.advance hd _ s.recordOrder rfl (fun q hq => .inl hq) hlive (by simp) (by simp) fun _ _ => h.due hd hsend
    · exact h.advance hd .sent s.recordOrder rfl (fun q hq => .inl hq) hlive (by simp) (by simp) (by simp)
  | finish =>
    simp only [State.deferStep, Option.ite_none_right_eq_some, Option.some.injEq] at hs
    obtain ⟨hphase, rfl⟩ := hs
    split
    · next q hq =>
      refine h.advance hd .finished (s.recordOrder.finish q) rfl (fun q' hq' => ?_) (by simp [hphase]) (by simp)
        (by simp) (by simp)
      by_cases hne : q' = q
      · exact .inr ⟨rfl, hne ▸ hq⟩
      · exact .inl (Order.mem_opened_finish.2 ⟨hq', hne⟩)
    · exact h.advance hd .finished s.recordOrder rfl (fun q hq => .inl hq) (by simp [hphase]) (by simp) (by simp)
        (by simp)

/-! ### Requests -/

theorem Published.beforeOk (h : s.Published) : s.BeforeOk s.before :=
  ⟨le_refl _, h.answered, fun _ hi => hi⟩

theorem getElem?_concat {α : Type} {l : List α} {a b : α} {i : Nat} (h : (l ++ [a])[i]? = some b) :
    l[i]? = some b ∨ b = a := by
  rw [List.getElem?_append] at h
  split at h
  · exact .inl h
  · exact .inr (List.mem_singleton.1 (List.mem_of_getElem? h))

theorem Published.request (h : s.Published) (route : Route) : (s.request route).Published := by
  cases route with
  | headBlob digest =>
    simp only [State.request]
    split
    · next hp =>
      refine h.frame (h.books.of_same rfl rfl rfl rfl rfl rfl) (.of_eq rfl rfl) rfl rfl rfl rfl (fun _ => .inl) ?_
      intro digest' hd
      rcases List.mem_cons.1 hd with rfl | hd
      · exact .inr (h.known _ hp)
      · exact .inl hd
    · exact h
  | putBlob digest =>
    exact h.frame (h.books.of_same rfl rfl rfl rfl rfl rfl) (.of_eq rfl rfl) rfl rfl rfl rfl (fun _ => .inl) fun _ => .inl
  | defer kind =>
    have he : s.Evolves (s.request (.defer kind)) := by
      constructor
      · intro q u hu
        exact ⟨u, hu, rfl, fun h => h⟩
      · intro i d hd
        refine ⟨d, ?_, rfl, fun h => h, fun _ h => h⟩
        exact (List.getElem?_append_left (List.getElem?_eq_some_iff.1 hd).1).trans hd
    have hnew : ∀ (i : Nat) d q, (s.request (.defer kind)).deferred[i]? = some d → d.sequence = some q →
        s.deferred[i]? = some d := by
      intro i d q hd hq
      refine (getElem?_concat hd).resolve_right fun hnew => ?_
      rw [hnew] at hq
      cases hq
    refine ⟨h.books.of_same rfl rfl rfl rfl rfl rfl, h.known, h.answered, ?_, ?_, ?_, ?_, ?_⟩
    · intro i d hd
      rcases getElem?_concat hd with hd | rfl
      · exact (h.deferrals i d hd).evolves he fun _ h => h
      · refine DeferralOk.evolves (s := s) ⟨h.beforeOk, fun _ _ hw => ?_, fun _ hr => ?_⟩ he fun _ h => h
        · cases hw
        · cases hr
    · intro i c hc
      obtain ⟨hb, hle⟩ := h.changes i c hc
      exact ⟨hb.evolves he fun _ h => h, hle⟩
    · intro i hi
      obtain ⟨d, q, hd, hkind, hq, hend⟩ := h.records i hi
      obtain ⟨d', hd', hkind', hphase', hq'⟩ := he.deferred i d hd
      exact ⟨d', q, hd', hkind'.trans hkind, hq' q hq, hend.imp_left hphase'⟩
    · intro i d q hd hq
      exact h.numbered i d q (hnew i d q hd hq) hq
    · intro i j d d' q hd hd' hq hq'
      exact h.unique i j d d' q (hnew i d q hd hq) (hnew j d' q hd' hq') hq hq'
  | forward => exact h
  | change =>
    have he : s.Evolves (s.request .change) := .of_eq rfl rfl
    refine ⟨h.books.of_same rfl rfl rfl rfl rfl rfl, h.known, h.answered, ?_, ?_, h.records, h.numbered, h.unique⟩
    · intro i d hd
      exact (h.deferrals i d hd).evolves he fun _ h => h
    · intro i c hc
      rcases getElem?_concat hc with hc | rfl
      · obtain ⟨hb, hle⟩ := h.changes i c hc
        exact ⟨hb.evolves he fun _ h => h, hle⟩
      · refine ⟨h.beforeOk.evolves he fun _ h => h, ?_⟩
        show s.uploads.length ≤ s.blobOrder.next
        rw [h.books.next]

theorem Published.sendChange (h : s.Published) {i : Nat} {c : Change} (hc : s.changes[i]? = some c) :
    Published { s with changes := s.changes.set i { c with sent := true } } := by
  have he : s.Evolves { s with changes := s.changes.set i { c with sent := true } } := .of_eq rfl rfl
  refine ⟨h.books.of_same rfl rfl rfl rfl rfl rfl, h.known, h.answered, ?_, ?_, h.records, h.numbered, h.unique⟩
  · intro j d hd
    exact (h.deferrals j d hd).evolves he fun _ h => h
  · intro j c' hj
    rw [getElem?_set_of_some hc] at hj
    split at hj
    · obtain rfl := Option.some.inj hj
      obtain ⟨hb, hle⟩ := h.changes i c hc
      exact ⟨hb.evolves he fun _ h => h, hle⟩
    · obtain ⟨hb, hle⟩ := h.changes j c' hj
      exact ⟨hb.evolves he fun _ h => h, hle⟩

theorem Published.step (h : s.Published) {spoolLimit : Nat} {event : Event} (hs : s.step spoolLimit event = some t) :
    t.Published := by
  cases event with
  | request method segments =>
    obtain rfl := Option.some.inj hs
    exact h.request _
  | put i event =>
    obtain ⟨p, -, hs⟩ := Option.bind_eq_some_iff.1 hs
    exact h.putStep hs
  | upload i event =>
    obtain ⟨u, hu, hs⟩ := Option.bind_eq_some_iff.1 hs
    exact h.uploadStep hu hs
  | defer i event =>
    obtain ⟨d, hd, hs⟩ := Option.bind_eq_some_iff.1 hs
    exact h.deferStep hd hs
  | sendChange i =>
    obtain ⟨c, hc, hs⟩ := Option.bind_eq_some_iff.1 hs
    obtain ⟨-, hs⟩ := Option.ite_none_right_eq_some.1 hs
    obtain rfl := Option.some.inj hs
    exact h.sendChange hc

/-! ## Order -/

theorem Published.inOrder (h : s.Published) {spoolLimit : Nat} {event : Event}
    (hs : s.step spoolLimit event = some t) : InOrder ⟨s, event, t⟩ where
  deferred i unreachable d hev hd := by
    subst hev
    obtain ⟨d', hd', hs⟩ := Option.bind_eq_some_iff.1 hs
    obtain rfl := Option.some.inj (hd.symm.trans hd')
    exact h.due hd (Option.ite_none_right_eq_some.1 hs).1
  change i c hev hc := by
    subst hev
    obtain ⟨c', hc', hs⟩ := Option.bind_eq_some_iff.1 hs
    obtain rfl := Option.some.inj (hc.symm.trans hc')
    obtain ⟨⟨-, hp⟩, -⟩ := Option.ite_none_right_eq_some.1 hs
    obtain ⟨hb, hle⟩ := h.changes i c hc
    exact h.books.blobsFinished hb hle hp

/-- **The relay keeps publication order.** In every run, whatever is sent to
the server goes after what it must follow: a record after every blob whose PUT
or HEAD was answered with success before the record arrived, a lease release
after every such blob and every record taken on before it arrived, any other
change after every such blob; each finished, whether or not it succeeded. -/
theorem run_inOrder (spoolLimit : Nat) {ms : List (Transition.Move State Event)} {s : State}
    (h : Transition.Run (fun s event t => s.step spoolLimit event = some t) init ms s) : ∀ m ∈ ms, InOrder m := by
  intro m hm
  obtain ⟨hreach, hs⟩ := h.mem m hm
  have hp : m.pre.Published := hreach.invariant Published init_published fun _ _ _ hp hs => hp.step hs
  exact hp.inOrder hs

/-- A blob, a record and a lease release that arrive together; the upload
fails, and each goes on in its turn. -/
def publishAndRelease : List Event :=
  let digest := String.ofList (List.replicate 64 'a')
  [.request .put ["v1", "blobs", digest], .put 0 .check, .put 0 .loadBytes,
    .put 0 (.spool (some (List.replicate 64 'a', 10))), .put 0 .accept,
    .request .put ["v1", "actions", "k", "a"], .defer 0 (.body true),
    .request .delete ["v1", "leases", "k", "t"], .defer 1 (.body true),
    .request .put ["v1", "archives", "n"],
    .upload 0 (.record false), .upload 0 .freeBytes, .upload 0 .freeFile, .upload 0 .finish,
    .sendChange 0, .defer 0 (.send true), .defer 0 (.send false), .defer 0 .finish, .defer 1 (.send false)]

theorem publishAndRelease_inOrder : ∃ ms s,
    Transition.Run (fun s event t => s.step 10 event = some t) init ms s ∧
      s.deferred.map (·.phase) = [.finished, .sent] ∧ ∀ m ∈ ms, InOrder m := by
  have hrun : (publishAndRelease.foldlM (fun (s : State) event => s.step 10 event) init).any (fun s =>
      decide (s.deferred.map (·.phase) = [.finished, .sent])) = true := by
    decide +kernel
  obtain ⟨s, hs, hfinal⟩ := (Option.any_eq_true _ _).1 hrun
  obtain ⟨ms, hms⟩ := Transition.Run.foldlM _ _ _ hs
  exact ⟨ms, s, hms, of_decide_eq_true hfinal, run_inOrder 10 hms⟩

end State

end Bellows.Relay
