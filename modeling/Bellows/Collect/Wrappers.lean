/-
Candidates, and the collections of a local store.

A wrapper puts the blobs of what it has built, and then the candidate, without
looking again whether they are there. What protects a blob in between is its
modification time, which only a collection that began before respects: one
that begins after the blob was offered, and evicts the last record that had
it, deletes it before the candidate names it.
-/
import Bellows.Collect.Candidates

namespace Bellows.Collect

open Bellows.Core Transition

/-- A local store, which wrappers share: batches have the mutation lock alone,
and an index keeps eight candidates. -/
def localStore (v : Validators) : Config := ⟨false, v, 8⟩

section

variable {v : Validators} {s t : State} {event : Event}

/-- A put that writes its candidate makes it readable, and nothing else. -/
theorem publish_candidate {id now : Nat} {locked : Bool} {c : ActionCandidate}
    (hadm : s.store.admits v (.candidate c) = true) (h : s.publish (localStore v) id locked (.candidate c) now = some t) :
    t.store.blobs = s.store.blobs ∧ ∃ index, (t.store.readCandidates v c.staticKey).1 = some index ∧ c ∈ index := by
  obtain ⟨store, index, hw, hb, hr, hm⟩ := Store.readCandidates_writeCandidate 8 (by omega) hadm
  have hv : v.candidate c = true := Store.accepts_of_admits hadm
  unfold State.publish at h
  split at h
  · cases h
  simp only [localStore, hv, if_true, hw] at h
  cases h
  exact ⟨hb, index, hr, hm⟩

theorem not_candidatesPresent_of_put (h : State.Step (localStore v) s event t)
    (hput : ¬ PutsComplete v (AcceptedCandidate v) s event) : ¬ CandidatesPresent v t.store := by
  intro hall
  refine hput ?_
  rintro id now r rfl hgoal ⟨c, rfl, -⟩ hadm d hd
  obtain ⟨locked, hp⟩ := publish_of_proceed hgoal (show s.proceed (localStore v) id now = some t from h)
  obtain ⟨hb, index, hr, hm⟩ := publish_candidate hadm hp
  have := hall c.staticKey index hr c hm d hd
  rwa [Store.hasBlob, hb] at this

end

/-- **A local store keeps its candidates complete exactly as long as every step
spares them.** Where collections take turns and nothing fails without stopping
what failed, the puts alone decide. -/
theorem wrappers_candidatesPresent (v : Validators) (store : Store) (h₀ : CandidatesComplete v store)
    {ms : List (Move State Event)} {s : State} (h : Run (State.Step (localStore v)) (.init store) ms s) :
    ((∀ m ∈ ms, CandidatesComplete v m.post.store) ↔ Meets (KeepsCandidates v) ms) ∧
      (Meets (KeepsCandidates v) ms → ∀ m ∈ ms, CandidatesPresent v m.post.store) ∧
      ((∀ m ∈ ms, Faultless m.pre m.label ∧ TakesTurns m.pre m.label) →
        ((∀ m ∈ ms, CandidatesPresent v m.post.store) ↔
          ∀ m ∈ ms, PutsComplete v (AcceptedCandidate v) m.pre m.label)) := by
  have hiff := candidatesComplete_iff store h₀ h
  refine ⟨hiff, fun hkeeps m hm => (hiff.2 hkeeps m hm).present, fun hfaultless => ?_⟩
  exact (h.restrict (C := fun s event => Faultless s event ∧ TakesTurns s event) hfaultless).posts_iff
    (fun s => Inv (localStore v) s ∧ CandidateInv s ∧ CandidatesComplete v s.store)
    (fun s => CandidatesPresent v s.store) (PutsComplete v (AcceptedCandidate v))
    ⟨Inv.init _ store, CandidateInv.init store, h₀⟩
    (fun _ ⟨_, _, hp⟩ => hp.present)
    (fun _ _ _ ⟨hi, hc, hp⟩ ⟨ht, hu, hturns⟩ hput => ⟨hi.step ht, hc.step hi hu hturns ht,
      faultless_complete_step hi hc hu ht hput hp⟩)
    (fun _ _ _ _ ⟨ht, _⟩ hput => not_candidatesPresent_of_put ht hput)

/-! ### Puts and collections -/

/-- The blobs of the new library are offered, the old library and its blobs are
collected, and the new library is put. -/
def putAfterCollection : List Event :=
  [.start 0 (.cacheCaptured newLibrary [(contentKey 'a', 10), (contentKey 'b', 0)]), .proceed 0 1000,
    .proceed 0 1000] ++ scanOldStore ++ List.replicate 10 (.advance 0) ++ [.proceed 0 3000]

/-- **The collection deletes what the wrapper has offered**: the candidate is
put over blobs that are gone. Nothing has failed. -/
theorem localStore_dangles : CandidatesComplete permissive oldStore ∧
    ∃ ms s, Run (State.Step (localStore permissive)) (.init oldStore) ms s ∧ (∀ m ∈ ms, m.label.fails = false) ∧
      ¬ CandidatesPresent permissive s.store := by
  refine ⟨fun r _ => oldStore_complete r, ?_⟩
  obtain ⟨ms, s, hr, hsteady, hd⟩ := exists_run (localStore permissive) Event.fails (dangling newLibrary)
    putAfterCollection (by decide +kernel)
  exact ⟨ms, s, hr, hsteady, not_candidatesPresent_of_dangling (by decide +kernel) hd⟩

/-- The old library's index goes; the blobs of the new library are offered and
it is put, and the collection spares them. -/
def putUnderCollection : List Event :=
  scanOldStore ++ List.replicate 4 (.advance 0) ++
    .start 0 (.cacheCaptured newLibrary [(contentKey 'a', 10), (contentKey 'b', 0)]) ::
      List.replicate 5 (.proceed 0 3000) ++ List.replicate 6 (.advance 0)

def Event.beginsAnother : Event → Bool
  | .collect id _ _ => id != 0
  | _ => false

/-- Collections that all are number 0 take turns. -/
theorem takesTurns_of_one {cfg : Config} {store : Store} {ms : List (Move State Event)} {s : State}
    (h : Run (State.Step cfg) (.init store) ms s) (hone : ∀ m ∈ ms, m.label.beginsAnother = false) :
    ∀ m ∈ ms, TakesTurns m.pre m.label := by
  intro m hm id options now he other hne
  obtain ⟨hreach, -, hlabel⟩ := (h.restrict (C := fun _ event => event.beginsAnother = false) hone).mem m hm
  have hidle := hreach.invariant (fun s => ∀ id, id ≠ 0 → s.collectors id = .idle) (fun _ _ => rfl)
    (fun s event t hidle ⟨ht, hlabel⟩ id hid => by
      rcases step_cases ht with ⟨job, hj⟩ | ⟨other, hcol⟩
      · rw [hj.collectors]
        exact hidle id hid
      by_cases he : id = other
      · subst he
        obtain ⟨options, now, rfl⟩ := (hcol.begins (hidle id hid)).1
        exact absurd (bne_eq_false_iff_eq.1 hlabel) hid
      · rw [hcol.others he]
        exact hidle id hid)
  rw [he] at hlabel
  exact hidle other (bne_eq_false_iff_eq.1 hlabel ▸ hne)

theorem wrappers_candidatesPresent_putUnderCollection :
    ∃ ms s, Run (State.Step (localStore permissive)) (.init oldStore) ms s ∧
      (s.store.readCandidates permissive (contentKey '3')).1 = some [newLibrary] ∧
      ((∀ m ∈ ms, CandidatesComplete permissive m.post.store) ↔ Meets (KeepsCandidates permissive) ms) ∧
      ((∀ m ∈ ms, CandidatesPresent permissive m.post.store) ↔
        ∀ m ∈ ms, PutsComplete permissive (AcceptedCandidate permissive) m.pre m.label) := by
  obtain ⟨ms, s, hr, hkind, hread⟩ := exists_run (localStore permissive) (fun event => event.fails || event.beginsAnother)
    (fun s => decide ((s.store.readCandidates permissive (contentKey '3')).1 = some [newLibrary])) putUnderCollection
    (by decide +kernel)
  obtain ⟨hiff, -, hputs⟩ := wrappers_candidatesPresent permissive oldStore (fun r _ => oldStore_complete r) hr
  have hturns := takesTurns_of_one hr fun m hm => (Bool.or_eq_false_iff.1 (hkind m hm)).2
  exact ⟨ms, s, hr, of_decide_eq_true hread, hiff, hputs fun m hm =>
    ⟨faultless_of_not_fails (Bool.or_eq_false_iff.1 (hkind m hm)).1 m.pre, hturns m hm⟩⟩

end Bellows.Collect
