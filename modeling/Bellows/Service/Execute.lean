/-
Remote execution of declared actions (`execute`, `execute_declared`) beside
clients that put declared records.

An execution holds the lock of its key from the check whether a record exists
until its answer. Its handler goes away with its client, and the lock with it;
a command that is already running then runs on without the lock and puts its
record all the same. The limit on concurrent runs only delays a command, and
the temporary directory and the blobs it stores are not kept.

A request stands here as it is after the checks that refuse it at once
(platform, key, `validate_execution_request`).
-/
import Mathlib.Data.Char
import Mathlib.Data.List.Lex
import Mathlib.Data.List.Sort
import Bellows.Core.StoreFacts
import Bellows.Lib.Run

namespace Bellows.Service

open Bellows.Core

structure ExecuteRequest where
  key : Text
  name : Text
  platform : PlatformIdentity
  command : List Text
  environment : List (Text × Text)
  inputs : List Artifact
  outputs : List Text
  deriving DecidableEq, Repr

/-- What a command's run leaves. `collected`: the files below its declared
outputs, in the order they are walked; the streams are the normalized ones. -/
structure Finished where
  collected : List Artifact
  stdout : StreamArtifact
  stderr : StreamArtifact
  createdMs : Nat
  durationMs : Nat
  executor : Text
  deriving DecidableEq, Repr

/-- `dedup_by`: of neighbours with one file name the first. -/
def dedupByName : List Artifact → List Artifact
  | [] => []
  | a :: rest =>
    match dedupByName rest with
    | [] => [a]
    | b :: kept => if a.fileName = b.fileName then a :: kept else a :: b :: kept

/-- The record of a run, unless it left no declared outputs. -/
def executedRecord (protocol : Nat) (request : ExecuteRequest) (run : Finished) : Option DeclaredActionRecord :=
  match dedupByName (run.collected.insertionSort fun a b => a.fileName ≤ b.fileName) with
  | [] => none
  | outputs => some {
      protocol
      key := request.key
      name := request.name
      createdMs := run.createdMs
      platform := request.platform
      command := request.command
      environment := request.environment
      inputs := request.inputs
      outputPaths := request.outputs
      outputs
      stdout := run.stdout
      stderr := run.stderr
      durationMs := run.durationMs
      executor := run.executor }

/-- `verify_declared_record`, as far as the store is asked. -/
def verifyDeclaredRecord (v : Validators) (s : Store) (r : DeclaredActionRecord) : Bool :=
  v.declared r && (r.inputs ++ r.outputs).all (fun a => s.hasBlob a.digest) &&
    [r.stdout, r.stderr].all fun stream =>
      (s.blobs.lookup stream.digest).any fun blob => blob.intact && blob.bytes == stream.len

inductive ExecuteResponse where
  | record (cacheHit : Bool) (record : DeclaredActionRecord)
  /-- `INTERNAL_SERVER_ERROR`: the record in the key's place was quarantined. -/
  | internal
  /-- `UNPROCESSABLE_ENTITY`: `execute_declared` failed. -/
  | unprocessable
  deriving DecidableEq, Repr

/-- Where an execution is. `intruder`: the record that a client, or a run
whose client is gone, stored under the key since the check. -/
inductive ExecutePhase where
  /-- For the lock of its key. -/
  | waiting
  /-- There was no record; it waits for a slot. -/
  | admitted (intruder : Option DeclaredActionRecord)
  | running (intruder : Option DeclaredActionRecord)
  /-- The command has succeeded; its record is put next. -/
  | produced (record : DeclaredActionRecord) (intruder : Option DeclaredActionRecord)
  | answered (response : ExecuteResponse)
  /-- Its client went away before the command ran. -/
  | dropped
  deriving DecidableEq, Repr

namespace ExecutePhase

/-- Between the check and the answer, and who intruded. -/
def intruder? : ExecutePhase → Option (Option DeclaredActionRecord)
  | .admitted intruder | .running intruder | .produced _ intruder => some intruder
  | _ => none

def intrude (r : DeclaredActionRecord) : ExecutePhase → ExecutePhase
  | .admitted _ => .admitted (some r)
  | .running _ => .running (some r)
  | .produced record _ => .produced record (some r)
  | phase => phase

end ExecutePhase

structure Execution where
  request : ExecuteRequest
  /-- Its client, and with it the handler and the lock, is still there. -/
  attached : Bool
  phase : ExecutePhase
  deriving DecidableEq, Repr

/-- Holds the lock of its key. -/
def Execution.locked (e : Execution) : Bool := e.attached && e.phase.intruder?.isSome

structure ExecuteState where
  store : Store
  executions : List Execution

inductive ExecuteEvent where
  | request (request : ExecuteRequest)
  /-- Takes the lock of its key, and looks for a record. -/
  | check (i : Nat)
  | spawn (i : Nat)
  /-- The command ends; `none` if it failed. -/
  | finish (i : Nat) (run : Option Finished)
  | publish (i : Nat) (now : Nat)
  | abandon (i : Nat)
  /-- A client's put. -/
  | putDeclared (record : DeclaredActionRecord) (now : Nat)
  deriving DecidableEq, Repr

namespace ExecuteState

variable (v : Validators) (protocol : Nat)

def setPhase (s : ExecuteState) (i : Nat) (phase : ExecutePhase) : ExecuteState :=
  { s with executions := s.executions.modify i fun e => { e with phase } }

/-- A record stored by someone without the lock. -/
def intrude (s : ExecuteState) (r : DeclaredActionRecord) : ExecuteState :=
  { s with executions := s.executions.map fun e =>
      if e.request.key = r.key then { e with phase := e.phase.intrude r } else e }

/-- The check of `execute` under the lock. -/
def check (s : ExecuteState) (i : Nat) (e : Execution) : ExecuteState :=
  match s.store.readDeclared v e.request.key with
  | (none, store) => { s with store }.setPhase i (.answered .internal)
  | (some (some record), store) => { s with store }.setPhase i (.answered (.record true record))
  | (some none, store) => { s with store }.setPhase i (.admitted none)

/-- The end of `execute_declared`. -/
def publish (s : ExecuteState) (i : Nat) (e : Execution) (record : DeclaredActionRecord) (now : Nat) : ExecuteState :=
  match s.store.putDeclared v record now with
  | (.error _, store) => { s with store }.setPhase i (.answered .unprocessable)
  | (.ok created, store) =>
    let s' : ExecuteState := { s with store }.setPhase i (.answered (.record false record))
    if created && !e.attached then s'.intrude record else s'

/-- The handler `put_declared`, under `writes`. -/
def put (s : ExecuteState) (record : DeclaredActionRecord) (now : Nat) : ExecuteState :=
  if verifyDeclaredRecord v s.store record then
    match s.store.putDeclared v record now with
    | (.ok true, store) => { s with store }.intrude record
    | (_, store) => { s with store }
  else s

def step (s : ExecuteState) : ExecuteEvent → Option ExecuteState
  | .request request => some { s with executions := s.executions ++ [⟨request, true, .waiting⟩] }
  | .check i => do
    let e ← s.executions[i]?
    if e.phase = .waiting ∧ ∀ other ∈ s.executions, other.request.key = e.request.key → other.locked = false
    then some (s.check v i e) else none
  | .spawn i => do
    let e ← s.executions[i]?
    match e.phase with
    | .admitted intruder => some (s.setPhase i (.running intruder))
    | _ => none
  | .finish i run => do
    let e ← s.executions[i]?
    match e.phase with
    | .running intruder =>
      match run.bind (executedRecord protocol e.request) with
      | none => some (s.setPhase i (.answered .unprocessable))
      | some record => some (s.setPhase i (.produced record intruder))
    | _ => none
  | .publish i now => do
    let e ← s.executions[i]?
    match e.phase with
    | .produced record _ => some (s.publish v i e record now)
    | _ => none
  | .abandon i => do
    let e ← s.executions[i]?
    match e.phase with
    | .waiting | .admitted _ =>
      some { s with executions := s.executions.set i { e with attached := false, phase := .dropped } }
    | .running _ | .produced _ _ => some { s with executions := s.executions.set i { e with attached := false } }
    | _ => none
  | .putDeclared record now => some (s.put v record now)

/-- When a record is put for an execution whose client is still there, the
one that intruded, if any, is the same. -/
def Undisturbed (s : ExecuteState) : ExecuteEvent → Prop
  | .publish i _ => ∀ e ∈ s.executions[i]?, e.attached = true → ∀ record intruder,
    e.phase = .produced record intruder → v.declared record = true → ∀ r ∈ intruder, r = record
  | _ => True

end ExecuteState

/-- A command that succeeded with a valid record is answered with that record,
and the store then has it under its key. -/
def Delivered (v : Validators) (m : Transition.Move ExecuteState ExecuteEvent) : Prop :=
  ∀ i now, m.label = .publish i now → ∀ e record intruder, m.pre.executions[i]? = some e →
    e.attached = true → e.phase = .produced record intruder → v.declared record = true →
    m.post.executions[i]? = some { e with phase := .answered (.record false record) } ∧
      ∃ ms, m.post.store.declared.lookup e.request.key = some (record, ms)

/-! ## What the lock of a key guards -/

/-- Between the check and the answer, the key's record is the intruder's, and
valid. -/
def Execution.Guarded (v : Validators) (store : Store) (e : Execution) : Prop :=
  ∀ intruder, e.phase.intruder? = some intruder →
    (store.declared.lookup e.request.key).map (·.1) = intruder ∧
      ∀ r ∈ intruder, v.declared r = true ∧ r.key = e.request.key

@[simp] theorem ExecutePhase.intruder?_intrude (r : DeclaredActionRecord) (phase : ExecutePhase) :
    (phase.intrude r).intruder? = phase.intruder?.map fun _ => some r := by
  cases phase <;> rfl

variable {v : Validators} {store store' : Store} {e : Execution}

theorem Execution.Guarded.of_lookup (h : e.Guarded v store)
    (hl : store'.declared.lookup e.request.key = store.declared.lookup e.request.key) : e.Guarded v store' := by
  intro intruder hi
  rw [hl]
  exact h intruder hi

/-- A put without the lock: where it stores the record it intrudes, and where
it does not the guarded record is as it was. -/
theorem Execution.Guarded.put (h : e.Guarded v store) {record : DeclaredActionRecord} {now : Nat}
    {result : Except Store.PutError Bool} (hp : store.putDeclared v record now = (result, store')) :
    (result = .ok true → ({ e with phase := if e.request.key = record.key then e.phase.intrude record else e.phase } :
        Execution).Guarded v store') ∧
      (result ≠ .ok true → e.Guarded v store') := by
  by_cases hk : e.request.key = record.key
  · rw [if_pos hk]
    cases hi : e.phase.intruder? with
    | none =>
      refine ⟨fun _ intruder hi' => ?_, fun _ intruder hi' => ?_⟩
      · rw [ExecutePhase.intruder?_intrude, hi] at hi'
        cases hi'
      · rw [hi] at hi'
        cases hi'
    | some intruder =>
      obtain ⟨hl, hvalid⟩ := h intruder hi
      by_cases hv : v.declared record = true
      · cases intruder with
        | none =>
          rw [Store.putDeclared_vacant now hv (by rw [← hk]; exact Option.map_eq_none_iff.1 hl)] at hp
          obtain ⟨rfl, rfl⟩ := Prod.mk.inj hp
          refine ⟨fun _ intruder' hi' => ?_, fun hne => absurd rfl hne⟩
          rw [ExecutePhase.intruder?_intrude, hi] at hi'
          obtain rfl := Option.some.inj hi'
          refine ⟨?_, ?_⟩
          · rw [hk, AList.lookup_insert]
            rfl
          · intro r hr
            obtain rfl := Option.some.inj hr
            exact ⟨hv, hk.symm⟩
        | some r =>
          obtain ⟨⟨r', ms⟩, hfile, rfl⟩ := Option.map_eq_some_iff.1 hl
          obtain ⟨hvr, hkr⟩ := hvalid _ rfl
          rw [hk] at hfile hkr
          rw [Store.putDeclared_taken now hv hfile hvr hkr] at hp
          obtain ⟨rfl, rfl⟩ := Prod.mk.inj hp
          refine ⟨fun htrue => ?_, fun _ => h⟩
          split at htrue <;> cases htrue
      · unfold Store.putDeclared at hp
        rw [if_neg hv] at hp
        obtain ⟨rfl, rfl⟩ := Prod.mk.inj hp
        refine ⟨fun htrue => ?_, fun _ => h⟩
        cases htrue
  · rw [if_neg hk]
    have hl := Store.lookup_putDeclared_ne (v := v) (s := store) now hk
    rw [hp] at hl
    exact ⟨fun _ => h.of_lookup hl, fun _ => h.of_lookup hl⟩

/-! ## The invariant -/

namespace ExecuteState

structure Inv (v : Validators) (s : ExecuteState) : Prop where
  guarded : ∀ (j : Nat) (e : Execution), s.executions[j]? = some e → e.locked = true → e.Guarded v s.store
  alone : ∀ (i j : Nat) (e e' : Execution), s.executions[i]? = some e → s.executions[j]? = some e' → e.locked = true →
    e'.locked = true → e.request.key = e'.request.key → i = j
  named : ∀ (j : Nat) (e : Execution) record intruder, s.executions[j]? = some e → e.phase = .produced record intruder →
    record.key = e.request.key

variable {s t : ExecuteState} {protocol : Nat}

theorem init_inv (store : Store) : Inv v ⟨store, []⟩ where
  guarded j e he := by simp at he
  alone i j e e' he := by simp at he
  named j e record intruder he := by simp at he

/-- Every execution comes from the one at its place, and only the `i`-th may
have taken the lock, which nobody else had. -/
theorem Inv.of_forall (h : s.Inv v) (i : Nat)
    (hall : ∀ (j : Nat) (e' : Execution), t.executions[j]? = some e' → ∃ e, s.executions[j]? = some e ∧ e'.request = e.request ∧
      (e'.locked = true → e'.Guarded v t.store ∧ (e.locked = true ∨ j = i ∧
        ∀ other ∈ s.executions, other.request.key = e.request.key → other.locked = false)) ∧
      ∀ record intruder, e'.phase = .produced record intruder → record.key = e.request.key) : t.Inv v where
  guarded j e' he' hlocked := by
    obtain ⟨e, -, -, hlock, -⟩ := hall j e' he'
    exact (hlock hlocked).1
  alone j k e₁' e₂' he₁ he₂ hl₁ hl₂ hkey := by
    obtain ⟨e₁, h₁, hr₁, hlock₁, -⟩ := hall j e₁' he₁
    obtain ⟨e₂, h₂, hr₂, hlock₂, -⟩ := hall k e₂' he₂
    rw [hr₁, hr₂] at hkey
    rcases (hlock₁ hl₁).2 with hs₁ | ⟨rfl, hfree₁⟩
    · rcases (hlock₂ hl₂).2 with hs₂ | ⟨rfl, hfree₂⟩
      · exact h.alone j k e₁ e₂ h₁ h₂ hs₁ hs₂ hkey
      · have := hfree₂ e₁ (List.mem_of_getElem? h₁) hkey
        rw [hs₁] at this
        cases this
    · rcases (hlock₂ hl₂).2 with hs₂ | ⟨rfl, hfree₂⟩
      · have := hfree₁ e₂ (List.mem_of_getElem? h₂) hkey.symm
        rw [hs₂] at this
        cases this
      · rfl
  named j e' record intruder he' hphase := by
    obtain ⟨e, -, hr, -, hnamed⟩ := hall j e' he'
    rw [hr]
    exact hnamed record intruder hphase

theorem getElem?_setPhase (s : ExecuteState) (i : Nat) (phase : ExecutePhase) (j : Nat) :
    (s.setPhase i phase).executions[j]? =
      (s.executions[j]?).map fun e => if i = j then { e with phase } else e := by
  simp only [setPhase, List.getElem?_modify]
  rfl

theorem getElem?_intrude (s : ExecuteState) (r : DeclaredActionRecord) (j : Nat) :
    (s.intrude r).executions[j]? = (s.executions[j]?).map fun e =>
      { e with phase := if e.request.key = r.key then e.phase.intrude r else e.phase } := by
  simp only [intrude, List.getElem?_map]
  refine congrArg (fun f => Option.map f _) (funext fun e => ?_)
  split <;> rfl

theorem locked_intrude {e : Execution} {r : DeclaredActionRecord} {p : Prop} [Decidable p] :
    ({ e with phase := if p then e.phase.intrude r else e.phase } : Execution).locked = e.locked := by
  split <;> simp [Execution.locked]

theorem produced_of_intrude {phase : ExecutePhase} {r record : DeclaredActionRecord}
    {intruder : Option DeclaredActionRecord} {p : Prop} [Decidable p]
    (h : (if p then phase.intrude r else phase) = .produced record intruder) :
    ∃ intruder', phase = .produced record intruder' := by
  split at h
  · cases phase with
    | produced record' intruder' =>
      cases h
      exact ⟨intruder', rfl⟩
    | _ => cases h
  · exact ⟨intruder, h⟩

/-- A put by someone who has no lock. -/
theorem Inv.put_unlocked (h : s.Inv v) {record : DeclaredActionRecord} {now : Nat}
    {result : Except Store.PutError Bool} (hp : s.store.putDeclared v record now = (result, store')) :
    (if result = .ok true then ({ s with store := store' } : ExecuteState).intrude record
      else { s with store := store' }).Inv v := by
  split
  · next htrue =>
    refine h.of_forall 0 fun j e' he' => ?_
    rw [getElem?_intrude] at he'
    obtain ⟨e, he, rfl⟩ := Option.map_eq_some_iff.1 he'
    refine ⟨e, he, rfl, fun hlocked => ?_, fun record' intruder hphase => ?_⟩
    · rw [locked_intrude] at hlocked
      exact ⟨((h.guarded j e he hlocked).put hp).1 htrue, .inl hlocked⟩
    · obtain ⟨intruder', hphase⟩ := produced_of_intrude hphase
      exact h.named j e record' intruder' he hphase
  · next hfalse =>
    exact h.of_forall 0 fun j e he => ⟨e, he, rfl,
      fun hlocked => ⟨((h.guarded j e he hlocked).put hp).2 hfalse, .inl hlocked⟩,
      fun record' intruder => h.named j e record' intruder he⟩

/-- An execution's own step that leaves the store as it is for the others. -/
theorem Inv.setPhase (h : s.Inv v) {i : Nat} {e : Execution} (he : s.executions[i]? = some e) {phase : ExecutePhase}
    (hstore : ∀ (j : Nat) (e' : Execution), j ≠ i → s.executions[j]? = some e' → e'.locked = true → e'.Guarded v store')
    (hown : ({ e with phase } : Execution).locked = true → ({ e with phase } : Execution).Guarded v store' ∧
      (e.locked = true ∨ ∀ other ∈ s.executions, other.request.key = e.request.key → other.locked = false))
    (hnamed : ∀ record intruder, phase = .produced record intruder → record.key = e.request.key) :
    (({ s with store := store' } : ExecuteState).setPhase i phase).Inv v := by
  refine h.of_forall i fun j e' he' => ?_
  rw [getElem?_setPhase] at he'
  obtain ⟨e₀, he₀, rfl⟩ := Option.map_eq_some_iff.1 he'
  refine ⟨e₀, he₀, ?_⟩
  by_cases hij : i = j
  · subst hij
    obtain rfl := Option.some.inj (he.symm.trans he₀)
    rw [if_pos rfl]
    exact ⟨rfl, fun hlocked => ⟨(hown hlocked).1, (hown hlocked).2.imp_right fun hfree => ⟨rfl, hfree⟩⟩, hnamed⟩
  · rw [if_neg hij]
    exact ⟨rfl, fun hlocked => ⟨hstore j e₀ (Ne.symm hij) he₀ hlocked, .inl hlocked⟩,
      fun record intruder => h.named j e₀ record intruder he₀⟩

theorem locked_iff {e : Execution} : e.locked = true ↔ e.attached = true ∧ e.phase.intruder?.isSome = true := by
  simp [Execution.locked]

theorem Inv.check (h : s.Inv v) {i : Nat} {e : Execution} (he : s.executions[i]? = some e)
    (hfree : ∀ other ∈ s.executions, other.request.key = e.request.key → other.locked = false) :
    (s.check v i e).Inv v := by
  have hread : ∀ (j : Nat) (e' : Execution), s.executions[j]? = some e' → e'.locked = true →
      e'.Guarded v (s.store.readDeclared v e.request.key).2 := by
    intro j e' he' hlocked
    have hne : e'.request.key ≠ e.request.key := by
      intro hk
      have := hfree e' (List.mem_of_getElem? he') hk
      rw [hlocked] at this
      cases this
    exact (h.guarded j e' he' hlocked).of_lookup (Store.lookup_readDeclared_ne hne)
  have hanswer : ∀ response, (({ s with store := (s.store.readDeclared v e.request.key).2 } : ExecuteState).setPhase i
      (.answered response)).Inv v := by
    intro response
    refine h.setPhase he (fun j e' _ => hread j e') (fun hlocked => ?_) (fun _ _ hphase => ?_)
    · simp [Execution.locked, ExecutePhase.intruder?] at hlocked
    · cases hphase
  unfold ExecuteState.check
  split
  · next store hr =>
    have := hanswer .internal
    rwa [hr] at this
  · next record store hr =>
    have := hanswer (.record true record)
    rwa [hr] at this
  · next store hr =>
    have hnone : s.store.declared.lookup e.request.key = none ∧ store = s.store := by
      unfold Store.readDeclared at hr
      split at hr
      · next hl => exact ⟨hl, (Prod.mk.inj hr).2.symm⟩
      · split at hr <;> cases hr
    obtain ⟨hnone, rfl⟩ := hnone
    refine h.setPhase he (fun j e' _ he' => h.guarded j e' he') (fun hlocked => ⟨?_, .inr hfree⟩)
      (fun _ _ hphase => ?_)
    · intro intruder hi
      obtain rfl := Option.some.inj hi
      exact ⟨by rw [hnone]; rfl, fun r hr => by cases hr⟩
    · cases hphase

/-- The result of an execution's put, while the lock is held. -/
theorem Inv.putDeclared_produced (h : s.Inv v) {i : Nat} {e : Execution} (he : s.executions[i]? = some e)
    (hattached : e.attached = true) {record : DeclaredActionRecord} {intruder : Option DeclaredActionRecord}
    (hphase : e.phase = .produced record intruder) (hv : v.declared record = true) (now : Nat) :
    (intruder = none ∧ s.store.putDeclared v record now =
        (.ok true, { s.store with declared := s.store.declared.insert record.key (record, now) })) ∨
      ∃ r ms, intruder = some r ∧ s.store.declared.lookup record.key = some (r, ms) ∧
        s.store.putDeclared v record now = (if r = record then .ok false else .error .conflict, s.store) := by
  have hkey := h.named i e record intruder he hphase
  have hlocked : e.locked = true := locked_iff.2 ⟨hattached, by rw [hphase]; rfl⟩
  obtain ⟨hl, hvalid⟩ := h.guarded i e he hlocked intruder (by rw [hphase]; rfl)
  rw [← hkey] at hl hvalid
  cases intruder with
  | none => exact .inl ⟨rfl, Store.putDeclared_vacant now hv (Option.map_eq_none_iff.1 hl)⟩
  | some r =>
    obtain ⟨⟨r', ms⟩, hfile, rfl⟩ := Option.map_eq_some_iff.1 hl
    obtain ⟨hvr, hkr⟩ := hvalid _ rfl
    exact .inr ⟨r', ms, rfl, hfile, Store.putDeclared_taken now hv hfile hvr hkr⟩

theorem Inv.answer (h : s.Inv v) {i : Nat} {e : Execution} (he : s.executions[i]? = some e)
    (hstore : ∀ (j : Nat) (e' : Execution), j ≠ i → s.executions[j]? = some e' → e'.locked = true →
      e'.Guarded v store') (response : ExecuteResponse) :
    (({ s with store := store' } : ExecuteState).setPhase i (.answered response)).Inv v := by
  refine h.setPhase he hstore (fun hlocked => ?_) (fun _ _ hphase => ?_)
  · simp [Execution.locked, ExecutePhase.intruder?] at hlocked
  · cases hphase

theorem Inv.publish (h : s.Inv v) {i : Nat} {e : Execution} (he : s.executions[i]? = some e)
    {record : DeclaredActionRecord} {intruder : Option DeclaredActionRecord}
    (hphase : e.phase = .produced record intruder) (now : Nat) : (s.publish v i e record now).Inv v := by
  cases hattached : e.attached with
  | true =>
    -- the lock is held: the put touches no other execution's key
    have hkey := h.named i e record intruder he hphase
    have hlocked : e.locked = true := locked_iff.2 ⟨hattached, by rw [hphase]; rfl⟩
    have hothers : ∀ (j : Nat) (e' : Execution), j ≠ i → s.executions[j]? = some e' → e'.locked = true →
        e'.Guarded v (s.store.putDeclared v record now).2 := by
      intro j e' hj he' hl'
      refine (h.guarded j e' he' hl').of_lookup (Store.lookup_putDeclared_ne now fun hk => hj ?_)
      exact h.alone j i e' e he' he hl' hlocked (hk.trans hkey)
    unfold ExecuteState.publish
    split
    · next hp =>
      rw [hp] at hothers
      exact h.answer he hothers _
    · next created store hp =>
      rw [hp] at hothers
      simp only [hattached, Bool.not_true, Bool.and_false, Bool.false_eq_true, if_false]
      exact h.answer he hothers _
  | false =>
    -- nobody's lock: as if it had answered first and put then
    have hanswer : ∀ response, (s.setPhase i (.answered response)).Inv v := fun response =>
      h.answer he (fun j e' _ => h.guarded j e') response
    unfold ExecuteState.publish
    split
    · next hp => exact (hanswer _).put_unlocked hp
    · next created store hp =>
      have hput := (hanswer (.record false record)).put_unlocked hp
      simp only [hattached, Bool.not_false, Bool.and_true]
      cases created with
      | true => exact hput
      | false => exact hput

theorem Inv.put (h : s.Inv v) (record : DeclaredActionRecord) (now : Nat) : (s.put v record now).Inv v := by
  unfold ExecuteState.put
  split
  · split
    · next hp => exact h.put_unlocked hp
    · next result store hne hp =>
      have hput := h.put_unlocked hp
      rwa [if_neg hne] at hput
  · exact h

theorem Inv.request (h : s.Inv v) (request : ExecuteRequest) :
    Inv v { s with executions := s.executions ++ [⟨request, true, .waiting⟩] } := by
  have hnew : ∀ (j : Nat) (e : Execution), (s.executions ++ [⟨request, true, .waiting⟩])[j]? = some e →
      s.executions[j]? = some e ∨ e.phase = .waiting := by
    intro j e he
    rw [List.getElem?_append] at he
    split at he
    · exact .inl he
    · obtain rfl := List.mem_singleton.1 (List.mem_of_getElem? he)
      exact .inr rfl
  have hold : ∀ (j : Nat) (e : Execution), (s.executions ++ [⟨request, true, .waiting⟩])[j]? = some e →
      e.locked = true → s.executions[j]? = some e := by
    intro j e he hlocked
    refine (hnew j e he).resolve_right fun hw => ?_
    simp [Execution.locked, hw, ExecutePhase.intruder?] at hlocked
  refine ⟨fun j e he hlocked => h.guarded j e (hold j e he hlocked) hlocked, ?_, ?_⟩
  · intro i j e e' he he' hl hl'
    exact h.alone i j e e' (hold i e he hl) (hold j e' he' hl') hl hl'
  · intro j e record intruder he hphase
    refine h.named j e record intruder ((hnew j e he).resolve_right fun hw => ?_) hphase
    rw [hw] at hphase
    cases hphase

/-- A step of its own that changes neither the store nor who intruded. -/
theorem Inv.advance (h : s.Inv v) {i : Nat} {e : Execution} (he : s.executions[i]? = some e) {phase : ExecutePhase}
    (hi : phase.intruder? = e.phase.intruder?)
    (hnamed : ∀ record intruder, phase = .produced record intruder → record.key = e.request.key) :
    (s.setPhase i phase).Inv v := by
  refine h.setPhase he (fun j e' _ => h.guarded j e') (fun hlocked => ?_) hnamed
  have hl : e.locked = true := by
    simpa only [Execution.locked, hi] using hlocked
  refine ⟨fun intruder hi' => ?_, .inl hl⟩
  exact h.guarded i e he hl intruder (hi.symm.trans hi')

/-- Its client goes away. -/
theorem Inv.abandon (h : s.Inv v) {i : Nat} {e : Execution} (he : s.executions[i]? = some e) {phase : ExecutePhase}
    (hnamed : ∀ record intruder, phase = .produced record intruder → record.key = e.request.key) :
    Inv v { s with executions := s.executions.set i { e with attached := false, phase } } := by
  refine h.of_forall i fun j e' he' => ?_
  rw [List.getElem?_set] at he'
  split at he'
  · next hij =>
    subst hij
    split at he'
    · obtain rfl := Option.some.inj he'
      exact ⟨e, he, rfl, fun hlocked => by simp [Execution.locked] at hlocked, hnamed⟩
    · cases he'
  · exact ⟨e', he', rfl, fun hlocked => ⟨h.guarded j e' he' hlocked, .inl hlocked⟩,
      fun record intruder => h.named j e' record intruder he'⟩

theorem executedRecord_key {request : ExecuteRequest} {run : Finished} {record : DeclaredActionRecord}
    (h : executedRecord protocol request run = some record) : record.key = request.key := by
  unfold executedRecord at h
  split at h
  · cases h
  · obtain rfl := Option.some.inj h
    rfl

theorem Inv.step (h : s.Inv v) {event : ExecuteEvent} (hs : s.step v protocol event = some t) : t.Inv v := by
  cases event with
  | request request =>
    obtain rfl := Option.some.inj hs
    exact h.request request
  | check i =>
    simp only [ExecuteState.step, Option.bind_eq_bind, Option.bind_eq_some_iff, Option.ite_none_right_eq_some] at hs
    obtain ⟨e, he, ⟨-, hfree⟩, hs⟩ := hs
    obtain rfl := Option.some.inj hs
    exact h.check he hfree
  | spawn i =>
    simp only [ExecuteState.step, Option.bind_eq_bind, Option.bind_eq_some_iff] at hs
    obtain ⟨e, he, hs⟩ := hs
    split at hs
    · next intruder hphase =>
      obtain rfl := Option.some.inj hs
      exact h.advance he (by rw [hphase]; rfl) fun _ _ hp => by cases hp
    · cases hs
  | finish i run =>
    simp only [ExecuteState.step, Option.bind_eq_bind, Option.bind_eq_some_iff] at hs
    obtain ⟨e, he, hs⟩ := hs
    split at hs
    · next intruder hphase =>
      split at hs
      · obtain rfl := Option.some.inj hs
        exact h.answer he (fun j e' _ => h.guarded j e') _
      · next record hrecord =>
        obtain rfl := Option.some.inj hs
        obtain ⟨run', -, hrun⟩ := Option.bind_eq_some_iff.1 hrecord
        refine h.advance he (by rw [hphase]; rfl) fun _ _ hp => ?_
        obtain ⟨rfl, -⟩ := ExecutePhase.produced.inj hp
        exact executedRecord_key hrun
    · cases hs
  | publish i now =>
    simp only [ExecuteState.step, Option.bind_eq_bind, Option.bind_eq_some_iff] at hs
    obtain ⟨e, he, hs⟩ := hs
    split at hs
    · next record intruder hphase =>
      obtain rfl := Option.some.inj hs
      exact h.publish he hphase now
    · cases hs
  | abandon i =>
    simp only [ExecuteState.step, Option.bind_eq_bind, Option.bind_eq_some_iff] at hs
    obtain ⟨e, he, hs⟩ := hs
    have hnamed := fun record intruder => h.named i e record intruder he
    split at hs
    · obtain rfl := Option.some.inj hs
      exact h.abandon he fun _ _ hp => by cases hp
    · obtain rfl := Option.some.inj hs
      exact h.abandon he fun _ _ hp => by cases hp
    · obtain rfl := Option.some.inj hs
      exact h.abandon he hnamed
    · obtain rfl := Option.some.inj hs
      exact h.abandon he hnamed
    · cases hs
  | putDeclared record now =>
    obtain rfl := Option.some.inj hs
    exact h.put record now

/-! ## Delivery -/

theorem Inv.delivered_iff (h : s.Inv v) {event : ExecuteEvent} (hs : s.step v protocol event = some t) :
    Delivered v ⟨s, event, t⟩ ↔ s.Undisturbed v event := by
  cases event with
  | publish i now =>
    simp only [ExecuteState.step, Option.bind_eq_bind, Option.bind_eq_some_iff] at hs
    obtain ⟨e, he, hs⟩ := hs
    constructor
    · intro hdelivered e' he' hattached record intruder hphase hv r hr
      obtain rfl : e = e' := Option.some.inj (he.symm.trans he')
      obtain ⟨hanswer, -⟩ := hdelivered i now rfl e record intruder he hattached hphase hv
      rw [hphase] at hs
      obtain rfl := Option.some.inj hs
      rcases h.putDeclared_produced he hattached hphase hv now with ⟨rfl, -⟩ | ⟨r', ms, rfl, -, hp⟩
      · cases hr
      · obtain rfl := Option.some.inj hr
        by_contra hne
        simp only [ExecuteState.publish, hp, if_neg hne, getElem?_setPhase, he, if_true, Option.map_some,
          Option.some.injEq, Execution.mk.injEq] at hanswer
        cases hanswer.2.2
    · intro hundisturbed i' now' hev e' record intruder he' hattached hphase hv
      cases hev
      obtain rfl : e = e' := Option.some.inj (he.symm.trans he')
      have hsame := hundisturbed e he hattached record intruder hphase hv
      have hkey := h.named i e record intruder he hphase
      rw [hphase] at hs
      obtain rfl := Option.some.inj hs
      rw [← hkey]
      rcases h.putDeclared_produced he hattached hphase hv now with ⟨rfl, hp⟩ | ⟨r', ms, rfl, hl, hp⟩
      · have hpublish : s.publish v i e record now =
            ({ s with store := { s.store with
                declared := s.store.declared.insert record.key (record, now) } } : ExecuteState).setPhase i
              (.answered (.record false record)) := by
          simp [ExecuteState.publish, hp, hattached]
        rw [hpublish]
        exact ⟨by simp [getElem?_setPhase, he], now, AList.lookup_insert _⟩
      · obtain rfl := hsame r' rfl
        have hpublish : s.publish v i e r' now = s.setPhase i (.answered (.record false r')) := by
          simp [ExecuteState.publish, hp, hattached]
        rw [hpublish]
        exact ⟨by simp [getElem?_setPhase, he], ms, hl⟩
  | _ => exact ⟨fun _ => trivial, fun _ _ _ hev => by cases hev⟩

/-- **An execution is delivered exactly if nobody without the lock stores
another record meanwhile.** In every run, from any store: each execution whose
command succeeds with a valid record is answered with that record, which the
store then has, exactly if no client's put, and no command whose client is
gone, has stored a different record under its key since it found none. Other
executions never come in between. -/
theorem delivered_iff_undisturbed (v : Validators) (protocol : Nat) (store : Store)
    {ms : List (Transition.Move ExecuteState ExecuteEvent)} {s : ExecuteState}
    (h : Transition.Run (fun s event t => s.step v protocol event = some t) ⟨store, []⟩ ms s) :
    (∀ m ∈ ms, Delivered v m) ↔ ∀ m ∈ ms, m.pre.Undisturbed v m.label := by
  refine forall₂_congr fun m hm => ?_
  obtain ⟨hreach, hstep⟩ := h.mem m hm
  have hinv : m.pre.Inv v := hreach.invariant (Inv v) (init_inv store) fun _ _ _ hi hs => hi.step hs
  exact hinv.delivered_iff hstep

/-! ### Two executions, and an execution beside a put -/

/-- Accepts every record, as if each key were the digest it stands for. -/
def trusting : Validators := ⟨fun _ => true, fun _ => true, fun _ => true⟩

def buildRequest : ExecuteRequest where
  key := List.replicate 64 'e'
  name := "build".toList
  platform := ⟨[], [], [], [], [], [], none, none, none, none⟩
  command := ["cargo", "build", "--locked", "--offline"].map (·.toList)
  environment := []
  inputs := []
  outputs := ["out".toList]

/-- A run of the build, ended at `createdMs`. -/
def buildRun (createdMs : Nat) : Finished where
  collected := [⟨"out/b".toList, List.replicate 64 'b', false⟩, ⟨"out/a".toList, List.replicate 64 'a', true⟩]
  stdout := ⟨List.replicate 64 'a', 3⟩
  stderr := ⟨List.replicate 64 'a', 3⟩
  createdMs
  durationMs := 7
  executor := "bellowsd:1".toList

/-- A store with the blobs of the build's outputs. -/
def builtStore : Store where
  blobs := ((∅ : Assoc Text Blob).insert (List.replicate 64 'a') ⟨3, 0, true⟩).insert (List.replicate 64 'b') ⟨5, 0, true⟩
  actions := ∅
  declared := ∅
  archives := ∅
  journal := ⟨0, none, []⟩

/-- The second of two executions is answered with the first's record. -/
theorem delivered_second_execution :
    ∃ ms s, Transition.Run (fun s event t => s.step trusting 6 event = some t) ⟨builtStore, []⟩ ms s ∧
      s.executions.map (·.phase) =
        [false, true].map (fun hit => .answered (.record hit ((executedRecord 6 buildRequest (buildRun 20)).get rfl))) ∧
      ((∀ m ∈ ms, Delivered trusting m) ↔ ∀ m ∈ ms, m.pre.Undisturbed trusting m.label) := by
  have hrun : ([.request buildRequest, .request buildRequest, .check 0, .spawn 0, .finish 0 (some (buildRun 20)),
      .publish 0 21, .check 1].foldlM (step trusting 6) ⟨builtStore, []⟩).any (fun s =>
        decide (s.executions.map (·.phase) = [false, true].map (fun hit =>
          .answered (.record hit ((executedRecord 6 buildRequest (buildRun 20)).get rfl))))) = true := by
    decide +kernel
  obtain ⟨s, hs, hfinal⟩ := (Option.any_eq_true _ _).1 hrun
  obtain ⟨ms, hms⟩ := Transition.Run.foldlM _ _ _ hs
  exact ⟨ms, s, hms, of_decide_eq_true hfinal, delivered_iff_undisturbed trusting 6 builtStore hms⟩

/-- A client puts its own record of the action while the command runs, with
another creation time: the command succeeds and its execution is refused. -/
theorem execution_refused_after_put :
    ¬ ∀ ms s, Transition.Run (fun s event t => s.step trusting 6 event = some t) ⟨builtStore, []⟩ ms s →
      ∀ m ∈ ms, Delivered trusting m := by
  intro hall
  have hrun : ([.request buildRequest, .check 0, .spawn 0,
      .putDeclared ((executedRecord 6 buildRequest (buildRun 10)).get rfl) 10,
      .finish 0 (some (buildRun 20))].foldlM (step trusting 6) ⟨builtStore, []⟩).any (fun s =>
        decide (s.executions[0]? = some ⟨buildRequest, true, .produced
          ((executedRecord 6 buildRequest (buildRun 20)).get rfl)
          (some ((executedRecord 6 buildRequest (buildRun 10)).get rfl))⟩) &&
        (s.step trusting 6 (.publish 0 21)).any fun t =>
          decide (t.executions[0]?.map (·.phase) = some (.answered .unprocessable))) = true := by
    decide +kernel
  obtain ⟨s, hs, hlast⟩ := (Option.any_eq_true _ _).1 hrun
  obtain ⟨hbefore, hlast⟩ := Bool.and_eq_true_iff.1 hlast
  obtain ⟨t, ht, hafter⟩ := (Option.any_eq_true _ _).1 hlast
  obtain ⟨ms, hms⟩ := Transition.Run.foldlM _ _ _ hs
  obtain ⟨hanswer, -⟩ := hall _ _ (hms.snoc ht) ⟨s, .publish 0 21, t⟩ (by simp) 0 21 rfl _ _ _
    (of_decide_eq_true hbefore) rfl rfl rfl
  have hphase := of_decide_eq_true hafter
  rw [hanswer] at hphase
  cases hphase

end ExecuteState

end Bellows.Service
