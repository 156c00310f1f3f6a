/-
When the records of a kind stay complete.

A step breaks it in one of three ways: it puts a record whose blobs are not all
there, it takes a blob of one for a corrupt copy, or it is a collection's
removal of a blob of one. A step that does none of these keeps it
(`Complete.step`), and one that does any of them leaves a record incomplete
(`Complete.puts`, `Complete.reads`, `Complete.removals`).
-/
import Bellows.Collect.CollectorSteps
import Bellows.Lib.Run

namespace Bellows.Collect

open Bellows.Core Transition

/-- Every record of a kind has all its blobs. -/
def Complete (P : Record → Prop) (store : Store) : Prop := ∀ r, P r → store.Holds r → store.AllPresent r

/-- A put that writes its record finds all the blobs of it. -/
def PutsComplete (v : Validators) (P : Record → Prop) (s : State) (event : Event) : Prop :=
  ∀ id now r, event = .proceed id now → (s.jobs id).publishing = some r → P r → s.store.admits v r = true →
    s.store.AllPresent r

/-- A blob that a put takes for a corrupt one is of no record of the kind. -/
def ReadsSpare (P : Record → Prop) (s : State) (event : Event) : Prop :=
  ∀ id d, s.Misreads event id d → ∀ r, P r → s.store.Holds r → d ∉ r.digests

/-- A blob that a collection removes is of no record of the kind. -/
def RemovalsSpare (P : Record → Prop) (s : State) (event : Event) : Prop :=
  ∀ id scan recent d now left, event = .advance id → s.collectors id = .applying scan recent (.removing d now left) →
    ∀ r, P r → s.store.Holds r → d ∉ r.digests

section

variable {cfg : Config} {s t : State} {event : Event} {P : Record → Prop}

/-- **Records stay complete**, if what is put is, and no blob of theirs goes. -/
theorem Complete.step (hs : Complete P s.store) (h : State.Step cfg s event t)
    (hput : PutsComplete cfg.validators P s event) (hread : ReadsSpare P s event) (hremove : RemovalsSpare P s event) : Complete P t.store := by
  intro r hr ht
  have hold : s.store.Holds r → t.store.AllPresent r := fun hh d hd => by
    have hthere := hs r hr hh d hd
    by_contra hn
    rcases removing_of_gone h hthere (Bool.not_eq_true _ ▸ hn) with ⟨id, he, scan, recent, now, left, hc⟩ | ⟨id, hm⟩
    · exact hremove id scan recent d now left he hc r hr hh hd
    · exact hread id d hm r hr hh hd
  rcases step_cases h with ⟨id, hj⟩ | ⟨id, hc⟩
  · rcases hj.holds r ht with hh | ⟨⟨now, he⟩, hp⟩
    · exact hold hh
    · refine fun d hd => (hj.blobs d (hput id now r he hp.goal hr hp.admits d hd)).resolve_right fun hm => ?_
      cases he.symm.trans hm.1
  · exact hold (hc.holds r ht)

/-! ## Steps that break it -/

theorem publish_of_proceed {id now : Nat} {r : Record} (hgoal : (s.jobs id).publishing = some r)
    (h : s.proceed cfg id now = some t) : ∃ locked, s.publish cfg id locked r now = some t := by
  unfold Job.publishing at hgoal
  unfold State.proceed at h
  split at hgoal
  · next hj =>
    subst hgoal
    rw [hj] at h
    exact ⟨false, h⟩
  · next hj =>
    cases hgoal
    rw [hj] at h
    exact ⟨true, h⟩
  · cases hgoal

/-- A put that writes its record, and nothing else. -/
theorem publish_admitted {id now : Nat} {locked : Bool} {r : Record} (hadm : s.store.admits cfg.validators r = true)
    (h : s.publish cfg id locked r now = some t) : t.store.blobs = s.store.blobs ∧ t.store.Holds r := by
  have hv := Store.accepts_of_admits hadm
  unfold State.publish at h
  split at h
  · cases h
  cases r with
  | candidate c =>
    obtain ⟨store, hw, hh⟩ := Store.holds_writeCandidate cfg.maxCandidates hadm
    simp only [show cfg.validators.candidate c = true from hv, if_true, hw] at h
    cases h
    exact ⟨(Store.writeCandidate_spec hw).1, hh⟩
  | declared r =>
    simp only [show cfg.validators.declared r = true from hv, if_true] at h
    cases h
    exact ⟨(Store.writeDeclared_spec cfg.validators s.store r now).1, Store.holds_writeDeclared hadm now⟩
  | archive m =>
    simp only [show cfg.validators.archive m = true from hv, if_true] at h
    cases h
    exact ⟨(Store.writeArchive_spec cfg.validators s.store m now).1, Store.holds_writeArchive hadm now⟩

theorem Complete.puts (ht : Complete P t.store) (h : State.Step cfg s event t) :
    PutsComplete cfg.validators P s event := by
  rintro id now r rfl hgoal hr hadm d hd
  obtain ⟨locked, hp⟩ := publish_of_proceed hgoal (show s.proceed cfg id now = some t from h)
  obtain ⟨hb, hh⟩ := publish_admitted hadm hp
  have := ht r hr hh d hd
  rwa [Store.hasBlob, hb] at this

theorem Complete.reads (ht : Complete P t.store) (h : State.Step cfg s event t) : ReadsSpare P s event := by
  rintro id d ⟨rfl, bytes, left, goal, hj⟩ r hr hh hd
  have hm : s.misread id = some t := h
  rw [State.misread, hj] at hm
  obtain ⟨-, hm⟩ := Option.ite_none_right_eq_some.1 hm
  cases hm
  have := ht r hr hh d hd
  rw [State.discardBlob, Store.hasBlob_removeBlob_self] at this
  cases this

theorem Complete.removals (ht : Complete P t.store) (h : State.Step cfg s event t) : RemovalsSpare P s event := by
  rintro id scan recent d now left rfl hcol r hr hh hd
  have ha : s.advance cfg id = some t := h
  rw [State.advance, hcol] at ha
  cases ha
  have := ht r hr hh d hd
  rw [Store.hasBlob_removeBlob_self] at this
  cases this

/-- A record whose blobs were read back has them all as it is put. -/
theorem Checked.allPresent (hc : Checked s) {id : Nat} {r : Record} (hj : s.jobs id = .checking [] r) :
    s.store.AllPresent r :=
  fun d hd => (hc id [] r hj d hd).resolve_left List.not_mem_nil

/-- Where no put takes a blob for a corrupt one, what was read back is there. -/
theorem checked_of_run {store : Store} {ms : List (Move State Event)} (h : Run (State.Step cfg) (.init store) ms s)
    (hreads : ∀ m ∈ ms, ∀ id, m.label ≠ .misread id) : ∀ m ∈ ms, Inv cfg m.pre ∧ Checked m.pre := fun m hm =>
  ((h.restrict (C := fun _ event => ∀ id, event ≠ .misread id) hreads).mem m hm).1.invariant
    (fun s => Inv cfg s ∧ Checked s) ⟨Inv.init _ store, Checked.init store⟩
    fun _ _ _ ⟨hi, hc⟩ ⟨ht, hr⟩ => ⟨hi.step ht, hc.step hi ht hr⟩

theorem readsSpare_of_ne (h : ∀ id, event ≠ .misread id) : ReadsSpare P s event := fun id _ hm => absurd hm.1 (h id)

end

end Bellows.Collect
