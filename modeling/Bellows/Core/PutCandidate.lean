/-
`put_candidate` one file operation at a time, any of which may fail.

An index that does not decode is one that does not validate: both are
quarantined. The temporary file is never read, so only its operations' success
matters; the bytes of two indexes are equal when the indexes are.
-/
import Bellows.Core.CandidateManifest
import Bellows.Core.StoreFacts
import Bellows.Lib.Prog

namespace Bellows.Core

/-! ## The program -/

/-- The file operations, in the order they are first tried. -/
inductive PutOp where
  | openLock
  | lock
  | createActions
  /-- `path.exists()`, which takes a failure for `false`. -/
  | statIndex
  | readIndex
  | quarantine
  | createParent
  | createTemp
  | writeTemp
  | syncTemp
  | rename
  /-- After a failed rename. -/
  | statAgain
  | readAgain
  | openParent
  | syncParent
  | createJournal
  | openJournal
  | appendJournal
  | unlock
  deriving DecidableEq, Repr

inductive PutFailure where
  | invalid
  | quarantined
  | failed (op : PutOp)
  deriving DecidableEq, Repr

abbrev PutProg := Prog Store PutFailure

namespace Put

variable (v : Validators) (faults : PutOp → Bool)

def attempt (op : PutOp) : PutProg Unit := if faults op then throw (.failed op) else pure ()

/-- `read_candidates` -/
def readIndexFile (key : Text) : PutProg (List ActionCandidate) := do
  let s ← get
  if faults .statIndex then return []
  else match s.actions.lookup key with
    | none => return []
    | some index =>
      attempt faults .readIndex
      if Store.validIndex v key index then return index
      else
        if !faults .quarantine then set (s.remove (.action key))
        throw .quarantined

/-- `atomic_write` as far as the temporary file. -/
def writeTemporary : PutProg Unit := do
  attempt faults .createParent
  attempt faults .createTemp
  attempt faults .writeTemp
  attempt faults .syncTemp

/-- The rename of `atomic_write` and what follows it. -/
def replaceIndex (key : Text) (index : List ActionCandidate) : PutProg Unit := do
  let s ← get
  if faults .rename then
    if faults .statAgain then throw (.failed .rename)
    else if s.actions.lookup key = some index ∧ faults .readAgain = false then return ()
    else throw (.failed .rename)
  else
    set { s with actions := s.actions.insert key index }
    attempt faults .openParent
    attempt faults .syncParent

def recordUse (staticKey actionKey : Text) (now : Nat) : PutProg Unit := do
  attempt faults .createJournal
  attempt faults .openJournal
  modify fun s => { s with journal := s.journal.opened }
  attempt faults .appendJournal
  modify fun s => { s with journal := s.journal.append s.journal.generation ⟨staticKey, actionKey, now⟩ }

/-- Up to the rename: the index to write. -/
def prepare (maxCandidates : Nat) (c : ActionCandidate) : PutProg (List ActionCandidate) := do
  if v.candidate c then
    attempt faults .openLock
    attempt faults .lock
    attempt faults .createActions
    let index ← readIndexFile v faults c.staticKey
    writeTemporary faults
    return Store.updatedIndex maxCandidates c index
  else throw .invalid

/-- From the rename on. -/
def publish (c : ActionCandidate) (now : Nat) (index : List ActionCandidate) : PutProg Unit := do
  replaceIndex faults c.staticKey index
  recordUse faults c.staticKey c.actionKey now
  attempt faults .unlock

/-- `put_candidate` -/
def putCandidate (maxCandidates : Nat) (c : ActionCandidate) (now : Nat) : PutProg Unit := do
  let index ← prepare v faults maxCandidates c
  publish faults c now index

end Put

/-- The candidates that `read_candidates` returns: none, if it fails. -/
def candidatesAt (v : Validators) (s : Store) (key : Text) : List ActionCandidate := (s.readCandidates v key).1.getD []

namespace Put

open Prog Store

variable {v : Validators} {faults : PutOp → Bool}

/-! ## What fails before the rename -/

theorem candidatesAt_congr {s t : Store} {key : Text} (h : t.actions.lookup key = s.actions.lookup key) :
    candidatesAt v t key = candidatesAt v s key := by
  unfold candidatesAt readCandidates
  rw [h]
  cases s.actions.lookup key with
  | none => rfl
  | some index =>
    dsimp only
    split <;> rfl

/-- The rule of an operation that may fail, and changes nothing. -/
theorem ensures_attempt_bind {α : Type} {op : PutOp} {f : Unit → PutProg α} {s : Store}
    {Q : Except PutFailure α → Store → Prop} (herror : faults op = true → Q (.error (.failed op)) s)
    (hok : faults op = false → Ensures (f ()) s Q) : Ensures (attempt faults op >>= f) s Q := by
  unfold attempt
  cases h : faults op with
  | true => exact herror h
  | false => exact hok h

theorem ensures_attempt {op : PutOp} {s : Store} {Q : Except PutFailure Unit → Store → Prop}
    (herror : faults op = true → Q (.error (.failed op)) s) (hok : faults op = false → Q (.ok ()) s) :
    Ensures (attempt faults op) s Q := by
  unfold attempt
  cases h : faults op with
  | true => exact herror h
  | false => exact hok h

/-- The index that the program goes on from. -/
def seenIndex (faults : PutOp → Bool) (s : Store) (key : Text) : List ActionCandidate :=
  if faults .statIndex then [] else (s.actions.lookup key).getD []

/-- What is always tried, in order, until the new index is in place. -/
def earlyOps : List PutOp :=
  [.openLock, .lock, .createActions, .createParent, .createTemp, .writeTemp, .syncTemp, .rename]

/-- Something stops the program by the time of the rename: an operation that
fails, or the candidate or the index in its place, which does not validate. -/
def StopsEarly (v : Validators) (faults : PutOp → Bool) (s : Store) (c : ActionCandidate) : Prop :=
  v.candidate c = false ∨ (∃ op ∈ earlyOps, faults op = true) ∨
    faults .statIndex = false ∧ ∃ index ∈ s.actions.lookup c.staticKey,
      faults .readIndex = true ∨ validIndex v c.staticKey index = false

instance (v : Validators) (faults : PutOp → Bool) (s : Store) (c : ActionCandidate) :
    Decidable (StopsEarly v faults s c) := by
  unfold StopsEarly
  infer_instance

theorem readIndexFile_spec (v : Validators) (faults : PutOp → Bool) (s : Store) (key : Text) :
    Ensures (readIndexFile v faults key) s fun r t => match r with
      | .error _ => candidatesAt v t key = candidatesAt v s key ∧ faults .statIndex = false ∧
        ∃ index ∈ s.actions.lookup key, faults .readIndex = true ∨ validIndex v key index = false
      | .ok index => t = s ∧ index = seenIndex faults s key ∧ (faults .statIndex = false →
        ∀ index ∈ s.actions.lookup key, faults .readIndex = false ∧ validIndex v key index = true) := by
  unfold readIndexFile
  rw [ensures_get_bind]
  cases hstat : faults .statIndex with
  | true =>
    rw [if_pos rfl]
    exact ⟨rfl, by simp [seenIndex, hstat], by simp⟩
  | false =>
    rw [if_neg (by simp)]
    cases hl : s.actions.lookup key with
    | none => exact ⟨rfl, by simp [seenIndex, hstat, hl], by simp⟩
    | some index =>
      refine ensures_attempt_bind (fun hread => ⟨rfl, rfl, index, rfl, .inl hread⟩) fun hread => ?_
      cases hvalid : validIndex v key index with
      | true =>
        rw [if_pos rfl]
        refine ⟨rfl, by simp [seenIndex, hstat, hl], fun _ other ho => ?_⟩
        obtain rfl := Option.some.inj ho
        exact ⟨hread, hvalid⟩
      | false =>
        rw [if_neg (by simp)]
        have hbefore : candidatesAt v s key = [] := by simp [candidatesAt, readCandidates, hl, hvalid]
        cases hq : faults .quarantine with
        | true => exact ⟨rfl, rfl, index, rfl, .inr hvalid⟩
        | false =>
          have hafter : candidatesAt v (s.remove (.action key)) key = [] := by
            simp [candidatesAt, readCandidates, Store.remove]
          exact ⟨hafter.trans hbefore.symm, rfl, index, rfl, .inr hvalid⟩

/-- Before the rename the candidates stay as they are. -/
theorem prepare_spec (v : Validators) (faults : PutOp → Bool) (maxCandidates : Nat) (c : ActionCandidate) (s : Store) :
    Ensures (prepare v faults maxCandidates c) s fun r t => match r with
      | .error _ => StopsEarly v faults s c ∧ candidatesAt v t c.staticKey = candidatesAt v s c.staticKey
      | .ok index => t = s ∧ index = updatedIndex maxCandidates c (seenIndex faults s c.staticKey) ∧
        (StopsEarly v faults s c ↔ faults .rename = true) := by
  have hstops : ∀ op ∈ earlyOps, faults op = true → StopsEarly v faults s c := fun op hop hf => .inr (.inl ⟨op, hop, hf⟩)
  unfold prepare
  cases hv : v.candidate c with
  | false => exact ⟨.inl hv, rfl⟩
  | true =>
    rw [if_pos rfl]
    refine ensures_attempt_bind (fun h => ⟨hstops _ (by decide) h, rfl⟩) fun h₁ => ?_
    refine ensures_attempt_bind (fun h => ⟨hstops _ (by decide) h, rfl⟩) fun h₂ => ?_
    refine ensures_attempt_bind (fun h => ⟨hstops _ (by decide) h, rfl⟩) fun h₃ => ?_
    refine (readIndexFile_spec v faults s c.staticKey).bind (fun e t h => ⟨.inr (.inr h.2), h.1⟩) fun index t h => ?_
    obtain ⟨rfl, rfl, hindex⟩ := h
    unfold writeTemporary
    simp only [bind_assoc]
    refine ensures_attempt_bind (fun h => ⟨hstops _ (by decide) h, rfl⟩) fun h₄ => ?_
    refine ensures_attempt_bind (fun h => ⟨hstops _ (by decide) h, rfl⟩) fun h₅ => ?_
    refine ensures_attempt_bind (fun h => ⟨hstops _ (by decide) h, rfl⟩) fun h₆ => ?_
    refine ensures_attempt_bind (fun h => ⟨hstops _ (by decide) h, rfl⟩) fun h₇ => ?_
    refine ⟨rfl, rfl, fun hearly => ?_, hstops _ (by decide)⟩
    rcases hearly with h | ⟨op, hop, h⟩ | ⟨hstat, other, ho, h⟩
    · rw [hv] at h
      cases h
    · simp only [earlyOps, List.mem_cons, List.not_mem_nil, or_false] at hop
      rcases hop with rfl | rfl | rfl | rfl | rfl | rfl | rfl | rfl <;> simp_all
    · obtain ⟨hread, hvalid⟩ := hindex hstat other ho
      rw [hread, hvalid] at h
      simp at h

/-- From the rename on only the journal changes. -/
theorem publish_spec (faults : PutOp → Bool) (c : ActionCandidate) (now : Nat) (index : List ActionCandidate) (s : Store) :
    Ensures (publish faults c now index) s fun _ t =>
      t.actions = if faults .rename then s.actions else s.actions.insert c.staticKey index := by
  have hrest : ∀ s : Store, Ensures (recordUse faults c.staticKey c.actionKey now >>= fun _ => attempt faults .unlock) s
      fun _ t => t.actions = s.actions := by
    intro s
    unfold recordUse
    simp only [bind_assoc]
    refine ensures_attempt_bind (fun _ => rfl) fun _ => ensures_attempt_bind (fun _ => rfl) fun _ => ?_
    rw [ensures_modify_bind]
    refine ensures_attempt_bind (fun _ => rfl) fun _ => ?_
    rw [ensures_modify_bind]
    exact ensures_attempt (fun _ => rfl) fun _ => rfl
  unfold publish replaceIndex
  simp only [bind_assoc]
  rw [ensures_get_bind]
  cases hrename : faults .rename with
  | false =>
    simp only [Bool.false_eq_true, if_false, bind_assoc]
    rw [ensures_set_bind]
    refine ensures_attempt_bind (fun _ => rfl) fun _ => ensures_attempt_bind (fun _ => rfl) fun _ => ?_
    exact hrest _
  | true =>
    rw [if_pos rfl]
    split
    · exact rfl
    split
    · exact hrest s
    · exact rfl

theorem putCandidate_spec (v : Validators) (faults : PutOp → Bool) (maxCandidates : Nat) (c : ActionCandidate) (now : Nat)
    (s : Store) : Ensures (putCandidate v faults maxCandidates c now) s fun _ t =>
      (StopsEarly v faults s c → candidatesAt v t c.staticKey = candidatesAt v s c.staticKey) ∧
      (¬ StopsEarly v faults s c → t.actions = s.actions.insert c.staticKey
        (updatedIndex maxCandidates c (seenIndex faults s c.staticKey))) := by
  unfold putCandidate
  refine (prepare_spec v faults maxCandidates c s).bind (fun e t h => ⟨fun _ => h.2, fun hlate => absurd h.1 hlate⟩)
    fun index t h => ?_
  obtain ⟨rfl, rfl, hrename⟩ := h
  refine (publish_spec faults c now _ t).mono fun r t' h => ?_
  refine ⟨fun hearly => candidatesAt_congr ?_, fun hlate => h.trans (if_neg fun hr => hlate (hrename.2 hr))⟩
  rw [h, if_pos (hrename.1 hearly)]

/-! ## What a failure changes -/

/-- The candidate is already the first of the index, alone with its action key,
and the index is no longer than it may be. -/
structure Republished (faults : PutOp → Bool) (maxCandidates : Nat) (c : ActionCandidate)
    (index : List ActionCandidate) : Prop where
  first : index.head? = some c
  alone : ∀ other ∈ index.tail, other.actionKey ≠ c.actionKey
  within : index.length ≤ max maxCandidates 1
  /-- An index that seems not to exist is written with the candidate alone. -/
  seen : faults .statIndex = true → index.length = 1

theorem Republished.updatedIndex_eq {maxCandidates : Nat} {c : ActionCandidate} {index : List ActionCandidate}
    (h : Republished faults maxCandidates c index) :
    updatedIndex maxCandidates c (if faults .statIndex then [] else index) = index := by
  obtain ⟨hfirst, halone, hwithin, hseen⟩ := h
  cases index with
  | nil => cases hfirst
  | cons c' tail =>
    obtain rfl := Option.some.inj hfirst
    have hfilter : tail.filter (fun other => other.actionKey ≠ c'.actionKey) = tail :=
      List.filter_eq_self.2 fun other ho => by simpa using halone other ho
    cases hstat : faults .statIndex with
    | true =>
      have hlength := hseen hstat
      obtain rfl : tail = [] := List.length_eq_zero_iff.1 (by simpa using hlength)
      exact List.take_of_length_le hwithin
    | false =>
      rw [if_neg (by simp), updatedIndex, List.filter_cons_of_neg (by simp), hfilter]
      exact List.take_of_length_le hwithin

theorem republished_of_updatedIndex_eq {maxCandidates : Nat} {c : ActionCandidate} {index : List ActionCandidate}
    (h : updatedIndex maxCandidates c (if faults .statIndex then [] else index) = index) :
    Republished faults maxCandidates c index := by
  have hpos : 0 < max maxCandidates 1 := by omega
  obtain ⟨n, hn⟩ : ∃ n, max maxCandidates 1 = n + 1 := ⟨max maxCandidates 1 - 1, by omega⟩
  refine ⟨?_, fun other ho => ?_, ?_, fun hstat => ?_⟩
  · rw [← h, updatedIndex, hn]
    rfl
  · rw [← h, updatedIndex, hn, List.take_succ_cons, List.tail_cons] at ho
    simpa using (List.mem_filter.1 (List.mem_of_mem_take ho)).2
  · rw [← h]
    exact List.length_take_le _ _
  · rw [hstat] at h
    rw [← h, if_pos rfl, updatedIndex, hn]
    simp

/-- Where the entries validate, the index does if it is not too long. -/
theorem validIndex_eq {key : Text} {index : List ActionCandidate}
    (hall : ∀ c ∈ index, v.candidate c = true ∧ c.staticKey = key) : validIndex v key index = decide (index.length ≤ 1024) := by
  rw [validIndex, Bool.and_eq_left_iff_imp, decide_eq_true_iff]
  exact fun _ => List.all_eq_true.2 fun c hc => by simp [hall c hc]

/-- What is read of a written index whose entries validate. -/
theorem candidatesAt_insert {s t : Store} {key : Text} {index : List ActionCandidate}
    (h : t.actions = s.actions.insert key index) (hall : ∀ c ∈ index, v.candidate c = true ∧ c.staticKey = key) :
    candidatesAt v t key = if index.length ≤ 1024 then index else [] := by
  unfold candidatesAt readCandidates
  rw [h, AList.lookup_insert]
  simp only [validIndex_eq hall, decide_eq_true_iff]
  split <;> rfl

theorem candidatesAt_lookup {s : Store} {key : Text} {index : List ActionCandidate}
    (h : s.actions.lookup key = some index) :
    candidatesAt v s key = if validIndex v key index then index else [] := by
  unfold candidatesAt readCandidates
  rw [h]
  dsimp only
  split <;> rfl

theorem mem_updatedIndex {maxCandidates : Nat} {c other : ActionCandidate} {index : List ActionCandidate}
    (h : other ∈ updatedIndex maxCandidates c index) : other = c ∨ other ∈ index :=
  (List.mem_cons.1 (List.mem_of_mem_take h)).imp_right fun h => (List.mem_filter.1 h).1

theorem length_updatedIndex_le (maxCandidates : Nat) (c : ActionCandidate) (index : List ActionCandidate) :
    (updatedIndex maxCandidates c index).length ≤ index.length + 1 := by
  have htake := List.length_take_le' (max maxCandidates 1) (c :: index.filter fun other => other.actionKey ≠ c.actionKey)
  have hfilter := List.length_filter_le (fun other => decide (other.actionKey ≠ c.actionKey)) index
  rw [List.length_cons] at htake
  exact Nat.le_trans htake (Nat.succ_le_succ hfilter)

theorem updatedIndex_nil (maxCandidates : Nat) (c : ActionCandidate) : updatedIndex maxCandidates c [] = [c] := by
  obtain ⟨n, hn⟩ : ∃ n, max maxCandidates 1 = n + 1 := ⟨max maxCandidates 1 - 1, by omega⟩
  simp [updatedIndex, hn]

/-- **A failed `put_candidate` changes no candidates just when it fails by the
time of the rename**, or would have changed none. -/
theorem failed_put_unchanged {v : Validators} {faults : PutOp → Bool} {maxCandidates : Nat} {c : ActionCandidate}
    {now : Nat} {s t : Store} {e : PutFailure}
    (h : outcome (putCandidate v faults maxCandidates c now) s = (.error e, t)) :
    candidatesAt v t c.staticKey = candidatesAt v s c.staticKey ↔
      StopsEarly v faults s c ∨ ∃ index ∈ s.actions.lookup c.staticKey, Republished faults maxCandidates c index := by
  have hspec := putCandidate_spec v faults maxCandidates c now s
  rw [Ensures, h] at hspec
  obtain ⟨hearly, hlate⟩ := hspec
  by_cases hstops : StopsEarly v faults s c
  · exact iff_of_true (hearly hstops) (.inl hstops)
  rw [or_iff_right hstops]
  have hactions := hlate hstops
  have hc : v.candidate c = true := by
    cases hv : v.candidate c with
    | true => rfl
    | false => exact absurd (.inl hv) hstops
  cases hl : s.actions.lookup c.staticKey with
  | none =>
    have hseen : seenIndex faults s c.staticKey = [] := by simp [seenIndex, hl]
    have hbefore : candidatesAt v s c.staticKey = [] := by simp [candidatesAt, readCandidates, hl]
    rw [hseen, updatedIndex_nil] at hactions
    rw [candidatesAt_insert hactions (by simp [hc]), hbefore]
    simp
  | some index =>
    have hrepublished : updatedIndex maxCandidates c (seenIndex faults s c.staticKey) = index ↔
        Republished faults maxCandidates c index := by
      have hseen : seenIndex faults s c.staticKey = if faults .statIndex then [] else index := by simp [seenIndex, hl]
      rw [hseen]
      exact ⟨republished_of_updatedIndex_eq, Republished.updatedIndex_eq⟩
    have hexists : (∃ index' ∈ some index, Republished faults maxCandidates c index') ↔
        Republished faults maxCandidates c index := by simp
    rw [hexists, ← hrepublished, candidatesAt_lookup hl]
    cases hstat : faults .statIndex with
    | true =>
      have hseen : seenIndex faults s c.staticKey = [] := by simp [seenIndex, hstat]
      rw [hseen, updatedIndex_nil] at hactions ⊢
      rw [candidatesAt_insert hactions (by simp [hc])]
      cases hvalid : validIndex v c.staticKey index with
      | true => simp
      | false =>
        refine iff_of_false (by simp) fun heq => ?_
        rw [← heq] at hvalid
        simp [validIndex, hc] at hvalid
    | false =>
      have hvalid : validIndex v c.staticKey index = true := by
        cases hvalid : validIndex v c.staticKey index with
        | true => rfl
        | false => exact absurd (.inr (.inr ⟨hstat, index, hl, .inr hvalid⟩)) hstops
      have hseen : seenIndex faults s c.staticKey = index := by simp [seenIndex, hstat, hl]
      rw [hseen] at hactions ⊢
      obtain ⟨hlength, hall⟩ : index.length ≤ 1024 ∧ ∀ other ∈ index, v.candidate other = true ∧ other.staticKey = c.staticKey := by
        simpa [validIndex] using hvalid
      have hnew : ∀ other ∈ updatedIndex maxCandidates c index,
          v.candidate other = true ∧ other.staticKey = c.staticKey := by
        intro other ho
        rcases mem_updatedIndex ho with rfl | ho
        · exact ⟨hc, rfl⟩
        · exact hall other ho
      rw [candidatesAt_insert hactions hnew, hvalid, if_pos rfl]
      split
      · rfl
      · next hlong =>
        have hle := length_updatedIndex_le maxCandidates c index
        refine iff_of_false (fun heq => ?_) fun heq => ?_
        · have hzero : index.length = 0 := by rw [← heq]; rfl
          omega
        · rw [heq] at hlong
          exact hlong hlength

/-- Candidates are validated with a hash that tells manifests apart by their
first file. -/
def fileValidators : Validators where
  candidate := fun c => decide (validateCandidateManifest
    (fun _ files _ _ => (files.head?.map (·.digest)).getD []) c = .ok ())
  declared := fun _ => false
  archive := fun _ => false

/-- A library of one file, whose digest tells it apart. -/
def candidateOf (digest : Text) : ActionCandidate where
  protocol := PROTOCOL_VERSION
  staticKey := List.replicate 64 'a'
  actionKey := digest
  crateName := "dep".toList
  createdMs := 1
  files := [⟨"$WORKSPACE/src/lib.rs".toList, digest⟩]
  hostFiles := []
  env := []
  artifacts := [⟨"libdep.rlib".toList, digest, false⟩]
  stdout := ⟨List.replicate 64 'e', 0⟩
  stderr := ⟨List.replicate 64 'e', 0⟩
  procMacros := []

def emptyStore : Store := ⟨∅, ∅, ∅, ∅, ⟨0, none, []⟩⟩

/-- A store that has another candidate of the same key. -/
def otherStore : Store :=
  { emptyStore with
    actions := (∅ : Assoc Text (List ActionCandidate)).insert (List.replicate 64 'a') [candidateOf (List.replicate 64 'c')] }

def putInto (s : Store) (faults : PutOp → Bool) : Except PutFailure Unit × Store :=
  outcome (putCandidate fileValidators faults 8 (candidateOf (List.replicate 64 'b')) 5) s

/-- The temporary file could not be synced: the other candidate stays, alone. -/
theorem failed_put_unchanged_syncTemp : (putInto otherStore (· == .syncTemp)).1 = .error (.failed .syncTemp) ∧
    candidatesAt fileValidators otherStore (List.replicate 64 'a') = [candidateOf (List.replicate 64 'c')] ∧
    candidatesAt fileValidators (putInto otherStore (· == .syncTemp)).2 (List.replicate 64 'a') =
      candidatesAt fileValidators otherStore (List.replicate 64 'a') :=
  have h : (putInto otherStore (· == .syncTemp)).1 = .error (.failed .syncTemp) := by decide +kernel
  ⟨h, by decide +kernel, (failed_put_unchanged (Prod.ext h rfl)).2 (.inl (by decide +kernel))⟩

/-- The line could not be appended to the journal: the candidate is there all
the same. -/
theorem failed_put_changes : ¬ ∀ (v : Validators) (faults : PutOp → Bool) (maxCandidates : Nat) (c : ActionCandidate)
    (now : Nat) (s t : Store) (e : PutFailure), outcome (putCandidate v faults maxCandidates c now) s = (.error e, t) →
      candidatesAt v t c.staticKey = candidatesAt v s c.staticKey := by
  intro h
  have hfailed : (putInto emptyStore (· == .appendJournal)).1 = .error (.failed .appendJournal) := by decide +kernel
  have hsame := h fileValidators (· == .appendJournal) 8 (candidateOf (List.replicate 64 'b')) 5 emptyStore _ _
    (Prod.ext hfailed rfl)
  have hdiffer : candidatesAt fileValidators (putInto emptyStore (· == .appendJournal)).2 (List.replicate 64 'a') ≠
      candidatesAt fileValidators emptyStore (List.replicate 64 'a') := by decide +kernel
  exact hdiffer hsame

end Put

end Bellows.Core
