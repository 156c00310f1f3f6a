/-
Any number of declared runs over one store, in any order of their steps: what
a run restores was made by a sandbox from the very same action.

The store is a local one that the runs share, or the server's. Its blobs may
become anything at any time, and its records may go. An execution is
remembered when its command has ended. The server runs what it was asked to
even if nobody waits for the answer any more.
-/
import Mathlib.Logic.Function.Basic
import Bellows.Cli.DeclaredRunFacts

namespace Bellows.Cli.Declared

open Text Checked Dialogue Bellows.Core
open Restore (Path Workspace)
open Service (ExecuteRequest)

/-- A command's run, in the sandbox of a client or of the server. -/
structure Execution where
  executor : Text
  request : ExecuteRequest
  inputs : List Collected
  ran : Ran

inductive Client where
  | preparing (localOnly remoteExecution : Bool) (program : Asking (Except String Job))
  | running (job : Job) (program : Asking (Except String Unit)) (told : Told)

structure Runs where
  /-- The records of the store, by their files' names. -/
  records : Text → Option DeclaredActionRecord
  executions : List Execution
  clients : Text → Client

/-- The record that an execution makes. -/
def Execution.Makes (digest : Bytes → Text) (e : Execution) (record : DeclaredActionRecord) : Prop :=
  ∃ blobs, e.ran.executed digest e.executor e.request e.inputs = .ok (record, blobs)

/-- What is not about records and executions. -/
def Call.plain : Call → Bool
  | .readRecord _ | .removeRecord _ | .putRecord _ | .execute _ | .sandbox .. => false
  | _ => true

namespace Runs

def put (s : Runs) (id : Text) (c : Client) : Runs := { s with clients := Function.update s.clients id c }

/-- Answered, the client goes on. -/
def goes (s : Runs) (id : Text) (job : Job) (told : Told) {c : Call} (next : Answer c → Asking (Except String Unit))
    (answer : Answer c) : Runs := s.put id (.running job (next answer) (told.after c answer))

/-- A record is written where there is none. -/
def store (s : Runs) (record : DeclaredActionRecord) : Runs :=
  if s.records record.key = none then { s with records := Function.update s.records record.key (some record) } else s

def erase (s : Runs) (key : Text) : Runs := { s with records := Function.update s.records key none }

def execution (s : Runs) (e : Execution) : Runs := { s with executions := e :: s.executions }

end Runs

inductive RunsEvent where
  | prepare (id : Text)
  | start (id : Text)
  | ask (id : Text)
  | read (id : Text)
  | remove (id : Text)
  | put (id : Text)
  | sandbox (id : Text)
  | answer (id : Text)
  | serve (id : Text)
  | lose (key : Text)
  deriving DecidableEq, Repr

open Runs in
/-- The steps. A call that is not about records and executions is answered
anything, and every other one may fail. -/
inductive RunsStep (digest : Bytes → Text) (s : Runs) : RunsEvent → Runs → Prop
  | prepare {id localOnly remoteExecution c next} (answer : Answer c) :
      s.clients id = .preparing localOnly remoteExecution (.call c next) →
      RunsStep digest s (.prepare id) (s.put id (.preparing localOnly remoteExecution (next answer)))
  | start {id localOnly remoteExecution job} :
      s.clients id = .preparing localOnly remoteExecution (.done (.ok job)) →
      RunsStep digest s (.start id)
        (s.put id (.running job (runJob digest localOnly remoteExecution job).run ⟨[], []⟩))
  | ask {id job c next told} (answer : Answer c) : s.clients id = .running job (.call c next) told → c.plain = true →
      RunsStep digest s (.ask id) (s.goes id job told next answer)
  | read {id job key next told} : s.clients id = .running job (.call (.readRecord key) next) told →
      RunsStep digest s (.read id) (s.goes id job told next (.ok (s.records key)))
  | unread {id job key next told} (error : String) : s.clients id = .running job (.call (.readRecord key) next) told →
      RunsStep digest s (.read id) (s.goes id job told next (.error error))
  | remove {id job key next told} : s.clients id = .running job (.call (.removeRecord key) next) told →
      RunsStep digest s (.remove id) ((s.erase key).goes id job told next (.ok ()))
  | unremoved {id job key next told} (error : String) :
      s.clients id = .running job (.call (.removeRecord key) next) told →
      RunsStep digest s (.remove id) (s.goes id job told next (.error error))
  | put {id job record next told} : s.clients id = .running job (.call (.putRecord record) next) told →
      s.records record.key = none ∨ s.records record.key = some record →
      RunsStep digest s (.put id) ((s.store record).goes id job told next (.ok ()))
  /-- The put failed, before or after the record was written. -/
  | refused {id job record next told} (error : String) (written : Bool) :
      s.clients id = .running job (.call (.putRecord record) next) told →
      RunsStep digest s (.put id) ((if written then s.store record else s).goes id job told next (.error error))
  | sandbox {id job request inputs next told} (ran : Ran) :
      s.clients id = .running job (.call (.sandbox request inputs) next) told →
      RunsStep digest s (.sandbox id)
        ((s.execution ⟨LOCAL_EXECUTOR, request, inputs, ran⟩).goes id job told next (.ok ran))
  | unexecuted {id job request inputs next told} (error : String) :
      s.clients id = .running job (.call (.sandbox request inputs) next) told →
      RunsStep digest s (.sandbox id) (s.goes id job told next (.error error))
  /-- The server answers with the record in its store, or with the one it has
  made for the request. -/
  | answer {id job request next told record} (hit : Bool) :
      s.clients id = .running job (.call (.execute request) next) told →
      (s.records request.key = some record ∨ ∃ e ∈ s.executions, e.request = request ∧ e.Makes digest record) →
      RunsStep digest s (.answer id) (s.goes id job told next (.ok (hit, record)))
  | unanswered {id job request next told} (error : String) :
      s.clients id = .running job (.call (.execute request) next) told →
      RunsStep digest s (.answer id) (s.goes id job told next (.error error))
  /-- The server runs what a client asked it for, from blobs that hash to their
  names, and puts the record unless it made none or failed to. -/
  | serve {id job program told inputs} (executor : Text) (ran : Ran) (record : Option DeclaredActionRecord) :
      s.clients id = .running job program told → inputs.map (·.1) = job.request.inputs → Digested digest inputs →
      (∀ r ∈ record, (⟨executor, job.request, inputs, ran⟩ : Execution).Makes digest r) →
      RunsStep digest s (.serve id)
        (record.toList.foldl Runs.store (s.execution ⟨executor, job.request, inputs, ran⟩))
  /-- A record is collected, or quarantined. -/
  | lose {key} : RunsStep digest s (.lose key) (s.erase key)

/-! ## What is restored -/

/-- The execution was of the job's action. -/
structure Execution.Of (e : Execution) (job : Job) : Prop where
  name : e.request.name = job.request.name
  platform : e.request.platform = job.request.platform
  command : e.request.command = job.request.command
  environment : e.request.environment = job.request.environment
  inputs : e.inputs = job.inputs
  outputs : e.request.outputs.Perm job.request.outputs

structure Runs.Safe (digest : Bytes → Text) (s : Runs) : Prop where
  /-- What a run restores is all that an execution of its action, with the same
  content of all inputs, left below the declared outputs. -/
  restored : ∀ id job record staged next told, s.clients id = .running job (.call (.restore record staged) next) told →
    ∃ e ∈ s.executions, e.Of job ∧ e.ran.success = true ∧ ∀ file, file ∈ staged ↔ ∃ path bytes executable,
      file = collectedAs digest path bytes executable ∧ Declares e.ran.tree e.request.outputs path bytes executable
  /-- What it prints is what such an execution printed. -/
  printed : ∀ id job stdout stderr next told, s.clients id = .running job (.call (.print stdout stderr) next) told →
    ∃ e ∈ s.executions, e.Of job ∧ (stdout = e.ran.stdout ∧ stderr = e.ran.stderr ∨
      stdout = e.ran.normalized e.ran.stdout ∧ stderr = e.ran.normalized e.ran.stderr)

/-! ## The invariant -/

/-- Somebody has made the record, for the action of that key. -/
def Made (digest : Bytes → Text) (executions : List Execution) (key : Text) (record : DeclaredActionRecord) : Prop :=
  ∃ e ∈ executions, e.Makes digest record ∧ e.request.key = key

/-- What a run has been told of was made. -/
structure Told.Sound (digest : Bytes → Text) (executions : List Execution) (job : Job) (told : Told) : Prop where
  records : ∀ record ∈ told.records, Made digest executions job.request.key record
  ran : ∀ ran ∈ told.ran, ⟨LOCAL_EXECUTOR, job.request, job.inputs, ran⟩ ∈ executions

/-- How far a client may be. -/
inductive Client.Sound (digest : Bytes → Text) (executions : List Execution) : Client → Prop
  | preparing {localOnly remoteExecution program} :
      program.Obeys asksFreely (fun _ result => True ∧ ∀ job, result = .ok job → job.Prepared digest) () →
      Client.Sound digest executions (.preparing localOnly remoteExecution program)
  | running {job program told} : job.Prepared digest →
      program.Obeys (asked digest job) (fun _ result => True ∧ ∀ a, result = .ok a → True) told →
      Told.Sound digest executions job told → Client.Sound digest executions (.running job program told)

variable {digest : Bytes → Text} {job : Job} {told : Told} {executions : List Execution}

theorem Made.mono {executions' : List Execution} {key : Text} {record : DeclaredActionRecord}
    (h : Made digest executions key record) (hsub : ∀ e ∈ executions, e ∈ executions') :
    Made digest executions' key record := by
  obtain ⟨e, he, hmade⟩ := h
  exact ⟨e, hsub e he, hmade⟩

theorem Told.Sound.mono {executions' : List Execution} (h : Told.Sound digest executions job told)
    (hsub : ∀ e ∈ executions, e ∈ executions') : Told.Sound digest executions' job told :=
  ⟨fun record hrecord => (h.records record hrecord).mono hsub, fun ran hran => hsub _ (h.ran ran hran)⟩

theorem Client.Sound.mono {c : Client} {executions' : List Execution} (h : Client.Sound digest executions c)
    (hsub : ∀ e ∈ executions, e ∈ executions') : Client.Sound digest executions' c := by
  cases h with
  | preparing hprogram => exact .preparing hprogram
  | running hjob hprogram htold => exact .running hjob hprogram (htold.mono hsub)

/-- Known records were made for the job's key. -/
theorem Told.Sound.known (h : Told.Sound digest executions job told) {record : DeclaredActionRecord}
    (hknown : Known digest job told record) : Made digest executions job.request.key record := by
  rcases hknown with hrecord | ⟨ran, hran, hmade⟩
  · exact h.records record hrecord
  · exact ⟨_, h.ran ran hran, hmade, rfl⟩

theorem Execution.Makes.recorded {e : Execution} {record : DeclaredActionRecord} (h : e.Makes digest record) :
    e.ran.Recorded digest e.executor e.request record := by
  obtain ⟨blobs, h⟩ := h
  exact Ran.executed_ok h

/-- One key, one action. -/
theorem execution_of (hd : Function.Injective digest) {e : Execution} (he : (⟨e.request, e.inputs⟩ : Job).Prepared digest)
    (hjob : job.Prepared digest) (hkey : e.request.key = job.request.key) : e.Of job := by
  have hbytes := hd (he.key.symm.trans (hkey.trans hjob.key))
  obtain ⟨hname, hplatform, hcommand, henvironment, hinputs, houtputs⟩ := declaredActionBytes_inj hbytes
  have hsorted : ∀ {job : Job}, job.Prepared digest → sortedByName job.request.inputs = job.request.inputs :=
    fun h => List.Pairwise.insertionSort_eq (h.sorted.imp le_of_lt)
  have hartifacts : e.request.inputs = job.request.inputs := (hsorted he).symm.trans (hinputs.trans (hsorted hjob))
  have hnamed : e.inputs.map (·.1) = job.inputs.map (·.1) := he.inputs.symm.trans (hartifacts.trans hjob.inputs)
  exact ⟨hname, hplatform, hcommand, henvironment, Digested.inj hd he.digested hjob.digested hnamed,
    (List.perm_insertionSort (· ≤ ·) _).symm.trans (houtputs ▸ List.perm_insertionSort (· ≤ ·) _)⟩

theorem told_after_plain {c : Call} (answer : Answer c) (hc : c.plain = true) : told.after c answer = told := by
  cases c <;> first | rfl | cases hc

theorem Told.Sound.record (h : Told.Sound digest executions job told) {record : DeclaredActionRecord}
    (hmade : Made digest executions job.request.key record) :
    Told.Sound digest executions job { told with records := record :: told.records } :=
  ⟨List.forall_mem_cons.2 ⟨hmade, h.records⟩, h.ran⟩

theorem Own.made (h : Told.Sound digest executions job told) {record : DeclaredActionRecord}
    (hown : Own digest job told record) : Made digest executions record.key record := by
  have hmade := h.known (.inr hown)
  obtain ⟨e, he, hmakes, hkey⟩ := hmade
  exact ⟨e, he, hmakes, hmakes.recorded.key.symm⟩

namespace Runs

/-- Runs that have not begun. -/
def init (digest : Bytes → Text) (args : Text → DeclaredRunArgs × Bool) : Runs where
  records _ := none
  executions := []
  clients id := .preparing (args id).1.localOnly (args id).2 (prepare digest (args id).1).run

structure Inv (digest : Bytes → Text) (s : Runs) : Prop where
  stored : ∀ key record, s.records key = some record → Made digest s.executions key record
  prepared : ∀ e ∈ s.executions, (⟨e.request, e.inputs⟩ : Job).Prepared digest
  clients : ∀ id, Client.Sound digest s.executions (s.clients id)

variable {s t : Runs} {id : Text}

/-! ### The steps -/

theorem init_inv (args : Text → DeclaredRunArgs × Bool) : (init digest args).Inv digest where
  stored key record h := by cases h
  prepared e he := by cases he
  clients id := .preparing (prepare_yields _)

theorem clients_put (id' : Text) (c : Client) :
    (s.put id c).clients id' = if id' = id then c else s.clients id' := Function.update_apply ..

theorem records_erase (key key' : Text) :
    (s.erase key).records key' = if key' = key then none else s.records key' := Function.update_apply ..

theorem Inv.putClient (h : s.Inv digest) {c : Client} (hc : Client.Sound digest s.executions c) :
    (s.put id c).Inv digest where
  stored := h.stored
  prepared := h.prepared
  clients id' := by
    rw [clients_put]
    split
    · exact hc
    · exact h.clients id'

theorem Inv.erase (h : s.Inv digest) (key : Text) : (s.erase key).Inv digest where
  stored key' record hrecord := by
    rw [records_erase] at hrecord
    split at hrecord
    · cases hrecord
    · exact h.stored key' record hrecord
  prepared := h.prepared
  clients := h.clients

/-- What is found was there, or is the record that was written. -/
theorem records_store {record found : DeclaredActionRecord} {key : Text}
    (h : (s.store record).records key = some found) :
    s.records key = some found ∨ key = record.key ∧ found = record := by
  unfold store at h
  split at h
  · simp only [Function.update_apply] at h
    split at h
    · next hkey => exact .inr ⟨hkey, (Option.some.inj h).symm⟩
    · exact .inl h
  · exact .inl h

theorem clients_store (record : DeclaredActionRecord) : (s.store record).clients = s.clients := by
  unfold store
  split <;> rfl

theorem executions_store (record : DeclaredActionRecord) : (s.store record).executions = s.executions := by
  unfold store
  split <;> rfl

theorem Inv.store (h : s.Inv digest) {record : DeclaredActionRecord}
    (hmade : Made digest s.executions record.key record) : (s.store record).Inv digest where
  stored key found hfound := by
    rw [executions_store]
    rcases records_store hfound with hbefore | ⟨rfl, rfl⟩
    · exact h.stored key found hbefore
    · exact hmade
  prepared e he := h.prepared e (by rwa [executions_store] at he)
  clients id := by
    rw [executions_store, clients_store]
    exact h.clients id

theorem Inv.execution (h : s.Inv digest) {e : Execution} (he : (⟨e.request, e.inputs⟩ : Job).Prepared digest) :
    (s.execution e).Inv digest where
  stored key record hrecord := (h.stored key record hrecord).mono fun _ => List.mem_cons_of_mem e
  prepared := List.forall_mem_cons.2 ⟨he, h.prepared⟩
  clients id := (h.clients id).mono fun _ => List.mem_cons_of_mem e

/-- What is asked is allowed; told the answer, the run goes on. -/
theorem Inv.goes (h : s.Inv digest) {c : Call} {next : Answer c → Asking (Except String Unit)} (answer : Answer c)
    (hc : s.clients id = .running job (.call c next) told)
    (htold : Told.Sound digest s.executions job told → Allows digest job told c →
      Told.Sound digest s.executions job (told.after c answer)) : (s.goes id job told next answer).Inv digest := by
  have hsound := h.clients id
  rw [hc] at hsound
  cases hsound with
  | running hjob hprogram hbefore =>
    exact h.putClient (.running hjob (hprogram.2 answer) (htold hbefore hprogram.1))

/-- A record that a client puts was made. -/
theorem Inv.putMade (h : s.Inv digest) {record : DeclaredActionRecord}
    {next : Answer (.putRecord record) → Asking (Except String Unit)}
    (hc : s.clients id = .running job (.call (.putRecord record) next) told) :
    Made digest s.executions record.key record := by
  have hsound := h.clients id
  rw [hc] at hsound
  cases hsound with
  | running hjob hprogram hbefore => exact Own.made hbefore hprogram.1

theorem Inv.step (h : s.Inv digest) {event : RunsEvent} (hs : RunsStep digest s event t) : t.Inv digest := by
  cases hs with
  | @prepare id localOnly remoteExecution c next answer hc =>
    have hsound := h.clients id
    rw [hc] at hsound
    cases hsound with
    | preparing hprogram => exact h.putClient (.preparing (hprogram.2 answer))
  | @start id localOnly remoteExecution job hc =>
    have hsound := h.clients id
    rw [hc] at hsound
    cases hsound with
    | preparing hprogram =>
      exact h.putClient (.running (hprogram.2 job rfl) (runJob_asks localOnly remoteExecution)
        ⟨fun _ hr => absurd hr List.not_mem_nil, fun _ hr => absurd hr List.not_mem_nil⟩)
  | ask answer hc hplain => exact h.goes answer hc fun htold _ => by rwa [told_after_plain answer hplain]
  | @read id job key next told hc =>
    refine h.goes _ hc fun htold hkey => ?_
    cases hrecord : s.records key with
    | none => exact htold
    | some record => exact htold.record (hkey ▸ h.stored key record hrecord)
  | unread error hc => exact h.goes _ hc fun htold _ => htold
  | remove hc => exact (h.erase _).goes _ hc fun htold _ => htold
  | unremoved error hc => exact h.goes _ hc fun htold _ => htold
  | @put id job record next told hc _ =>
    exact (h.store (h.putMade hc)).goes _ (by rwa [clients_store]) fun htold _ => htold
  | @refused id job record next told error written hc =>
    cases written with
    | true => exact (h.store (h.putMade hc)).goes _ (by rwa [clients_store]) fun htold _ => htold
    | false => exact h.goes _ hc fun htold _ => htold
  | @sandbox id job request inputs next told ran hc =>
    have hsound := h.clients id
    rw [hc] at hsound
    cases hsound with
    | running hjob hprogram hbefore =>
      obtain ⟨rfl, rfl⟩ := hprogram.1
      refine (h.execution hjob).goes _ hc fun htold _ => ⟨htold.records, ?_⟩
      exact List.forall_mem_cons.2 ⟨List.mem_cons_self, htold.ran⟩
  | unexecuted error hc => exact h.goes _ hc fun htold _ => htold
  | @answer id job request next told record hit hc hrecord =>
    refine h.goes _ hc fun htold hrequest => ?_
    obtain rfl : request = job.request := hrequest
    refine htold.record ?_
    rcases hrecord with hstored | ⟨e, he, hsame, hmakes⟩
    · exact h.stored _ record hstored
    · exact ⟨e, he, hmakes, by rw [hsame]⟩
  | unanswered error hc => exact h.goes _ hc fun htold _ => htold
  | @serve id job program told inputs executor ran record hc hinputs hdigested hmakes =>
    have hsound := h.clients id
    rw [hc] at hsound
    cases hsound with
    | running hjob hprogram hbefore =>
      have he := @Inv.execution digest s h ⟨executor, job.request, inputs, ran⟩
        ⟨hjob.key, hinputs.symm, hjob.sorted, hdigested⟩
      cases record with
      | none => exact he
      | some record =>
        have hmade := hmakes record rfl
        exact he.store ⟨_, List.mem_cons_self, hmade, hmade.recorded.key.symm⟩
  | lose => exact h.erase _

/-! ## What every run restores -/

/-- What is staged for a record that was made is what its sandbox left. -/
theorem mem_staged_iff (hd : Function.Injective digest) {e : Execution} {record : DeclaredActionRecord}
    {staged : List Collected} (hmakes : e.Makes digest record) (hstages : Stages digest record staged)
    (file : Collected) : file ∈ staged ↔ ∃ path bytes executable,
      file = collectedAs digest path bytes executable ∧ Declares e.ran.tree e.request.outputs path bytes executable := by
  have houtputs := hmakes.recorded.outputs
  have hartifact : ∀ artifact, artifact ∈ record.outputs ↔ ∃ bytes, (artifact, bytes) ∈ staged := by
    intro artifact
    rw [← hstages.artifacts, List.mem_map]
    exact ⟨fun ⟨file, hfile, heq⟩ => ⟨file.2, by rwa [← heq]⟩, fun ⟨bytes, hfile⟩ => ⟨_, hfile, rfl⟩⟩
  constructor
  · intro hfile
    obtain ⟨path, bytes, executable, hsame, hdeclares⟩ := (houtputs file.1).1 ((hartifact file.1).2 ⟨file.2, hfile⟩)
    have hcontent := hstages.digested file hfile
    rw [hsame] at hcontent
    exact ⟨path, bytes, executable, Prod.ext hsame (hd hcontent).symm, hdeclares⟩
  · intro hfound
    obtain ⟨path, bytes, executable, rfl, hdeclares⟩ := hfound
    obtain ⟨bytes', hfile⟩ := (hartifact _).1 ((houtputs _).2 ⟨path, bytes, executable, rfl, hdeclares⟩)
    obtain rfl := hd (hstages.digested _ hfile)
    exact hfile

theorem Inv.safe (h : s.Inv digest) (hd : Function.Injective digest) : s.Safe digest where
  restored id job record staged next told hc := by
    have hsound := h.clients id
    rw [hc] at hsound
    cases hsound with
    | running hjob hprogram htold =>
      obtain ⟨hknown, hstages⟩ := hprogram.1
      obtain ⟨e, he, hmakes, hkey⟩ := htold.known hknown
      exact ⟨e, he, execution_of hd (h.prepared e he) hjob hkey, hmakes.recorded.success,
        mem_staged_iff hd hmakes hstages⟩
  printed id job stdout stderr next told hc := by
    have hsound := h.clients id
    rw [hc] at hsound
    cases hsound with
    | running hjob hprogram htold =>
      rcases hprogram.1 with ⟨ran, hran, hout, herr⟩ | ⟨record, hknown, hout, herr⟩
      · exact ⟨_, htold.ran ran hran, execution_of hd hjob hjob rfl, .inl ⟨hout, herr⟩⟩
      · obtain ⟨e, he, hmakes, hkey⟩ := htold.known hknown
        refine ⟨e, he, execution_of hd (h.prepared e he) hjob hkey, .inr ⟨?_, ?_⟩⟩
        · exact hd (hout.symm.trans hmakes.recorded.stdout)
        · exact hd (herr.symm.trans hmakes.recorded.stderr)

/-- **A declared run restores what a run of its own action made.** -/
theorem reachable_restores (hd : Function.Injective digest) (args : Text → DeclaredRunArgs × Bool)
    (hs : Transition.Reachable (RunsStep digest) (init digest args) s) : s.Safe digest :=
  (hs.invariant (Inv digest) (init_inv args) fun _ _ _ h hstep => h.step hstep).safe hd

/-! ## What every client does -/

/-- What a client has left of `run_declared_action`. -/
def left (digest : Bytes → Text) : Client → Asking (Except String Unit)
  | .preparing localOnly remoteExecution program => program >>= fun
    | .ok job => (runJob digest localOnly remoteExecution job).run
    | .error e => .done (.error e)
  | .running _ program _ => program

theorem left_init (args : Text → DeclaredRunArgs × Bool) (id : Text) :
    left digest ((init digest args).clients id) = (runDeclaredAction digest (args id).1 (args id).2).run := by
  show (prepare digest (args id).1).run >>= _ = (prepare digest (args id).1).run >>= _
  congr 1
  funext result
  cases result <;> rfl

/-- A step is at most one exchange of one client. -/
theorem step_left {event : RunsEvent} (hs : RunsStep digest s event t) (id : Text) :
    ∃ history, Takes (left digest (s.clients id)) history (left digest (t.clients id)) := by
  -- the client `who` comes to `c`, and no other one moves
  have hput : ∀ {u : Runs} (who : Text) {c : Client}, u.clients = s.clients →
      (∃ history, Takes (left digest (s.clients who)) history (left digest c)) →
        ∃ history, Takes (left digest (s.clients id)) history (left digest ((u.put who c).clients id)) := by
    intro u who c hclients hwho
    rw [clients_put, hclients]
    split
    · next hid =>
      rw [hid]
      exact hwho
    · exact ⟨[], .refl⟩
  have hgoes : ∀ {u : Runs} (who : Text) {job told} {c : Call} {next : Answer c → Asking (Except String Unit)}
      (answer : Answer c), u.clients = s.clients → s.clients who = .running job (.call c next) told →
        ∃ history, Takes (left digest (s.clients id)) history
          (left digest ((u.goes who job told next answer).clients id)) := by
    intro u who job told c next answer hclients hc
    refine hput who hclients ⟨[⟨c, answer⟩], ?_⟩
    rw [hc]
    exact .call .refl
  cases hs with
  | prepare answer hc =>
    refine hput _ rfl ⟨[⟨_, answer⟩], ?_⟩
    rw [hc]
    exact .call .refl
  | start hc =>
    refine hput _ rfl ⟨[], ?_⟩
    rw [hc]
    exact .refl
  | ask answer hc _ => exact hgoes _ answer rfl hc
  | read hc => exact hgoes _ _ rfl hc
  | unread error hc => exact hgoes _ _ rfl hc
  | remove hc => exact hgoes _ _ rfl hc
  | unremoved error hc => exact hgoes _ _ rfl hc
  | put hc _ => exact hgoes _ _ (clients_store _) hc
  | refused error written hc =>
    cases written with
    | true => exact hgoes _ _ (clients_store _) hc
    | false => exact hgoes _ _ rfl hc
  | sandbox ran hc => exact hgoes _ _ rfl hc
  | unexecuted error hc => exact hgoes _ _ rfl hc
  | answer hit hc _ => exact hgoes _ _ rfl hc
  | unanswered error hc => exact hgoes _ _ rfl hc
  | @serve who job program told inputs executor ran record hc hinputs hdigested hmakes =>
    cases record with
    | none => exact ⟨[], .refl⟩
    | some record =>
      refine ⟨[], ?_⟩
      rw [Option.toList_some, List.foldl_cons, List.foldl_nil, clients_store]
      exact .refl
  | lose => exact ⟨[], .refl⟩

/-- **Each client follows `run_declared_action`**, whatever the others do. -/
theorem reachable_follows (args : Text → DeclaredRunArgs × Bool)
    (hs : Transition.Reachable (RunsStep digest) (init digest args) s) (id : Text) :
    ∃ history, Takes (runDeclaredAction digest (args id).1 (args id).2).run history (left digest (s.clients id)) := by
  rw [← left_init]
  refine hs.invariant (fun s => ∃ history, Takes _ history (left digest (s.clients id))) ⟨[], .refl⟩ ?_
  intro s event t hfollows hstep
  obtain ⟨history, hbefore⟩ := hfollows
  obtain ⟨later, hafter⟩ := step_left hstep id
  exact ⟨history ++ later, hbefore.trans hafter⟩

/-! ## One run, until it restores -/

theorem put_put (c c' : Client) : (s.put id c).put id c' = s.put id c' := by
  simp [put]

theorem put_self : s.put id (s.clients id) = s := by
  simp [put]

/-- While it is prepared a run may be answered anything. -/
theorem reachable_prepared {s₀ : Runs} {localOnly remoteExecution : Bool} {p q : Asking (Except String Job)}
    {history : List (Exchange Answer)} (ht : Takes p history q)
    (hs : Transition.Reachable (RunsStep digest) s₀ (s.put id (.preparing localOnly remoteExecution p))) :
    Transition.Reachable (RunsStep digest) s₀ (s.put id (.preparing localOnly remoteExecution q)) := by
  induction ht with
  | refl => exact hs
  | @call c next answer history q _ ih =>
    have hstep : RunsStep digest (s.put id (.preparing localOnly remoteExecution (.call c next))) (.prepare id) _ :=
      .prepare answer (by rw [clients_put, if_pos rfl])
    rw [put_put] at hstep
    exact ih (hs.tail hstep)

def soloPlatform : PlatformIdentity where
  rustc := ['r']
  cargo := ['c']
  os := ['l']
  arch := ['x']
  pathDigest := List.replicate 64 '1'
  rustupHomeDigest := List.replicate 64 '2'
  rustupToolchain := none
  hostCc := none
  hostLd := none
  hostAr := none

def soloArgs : DeclaredRunArgs := ⟨true, ['n'], ["src".toList], ["out".toList], [], ["rustc".toList]⟩

/-- What the run digests that is recorded: its action, the output and the
streams. -/
def soloTable : List Bytes :=
  [declaredActionBytes ['n'] soloPlatform ["rustc".toList] [] [] ["out".toList], [7], [104], []]

/-- Content keys for those, and what is none for anything else. -/
def soloDigest (bytes : Bytes) : Text :=
  if bytes ∈ soloTable then List.replicate 64 (Char.ofNat (97 + soloTable.idxOf bytes)) else '!' :: spelled bytes

theorem soloDigest_injective : Function.Injective soloDigest := by
  have htable : ∀ a ∈ soloTable, ∀ b ∈ soloTable, soloDigest a = soloDigest b → a = b := by decide +kernel
  have hhead : ∀ a ∈ soloTable, (soloDigest a).head? ≠ some '!' := by decide +kernel
  have helse : ∀ {a : Bytes}, a ∉ soloTable → soloDigest a = '!' :: spelled a := fun ha => if_neg ha
  intro a b h
  by_cases ha : a ∈ soloTable
  · by_cases hb : b ∈ soloTable
    · exact htable a ha b hb h
    · exact absurd (by rw [h, helse hb]; rfl) (hhead a ha)
  · by_cases hb : b ∈ soloTable
    · exact absurd (by rw [← h, helse ha]; rfl) (hhead b hb)
    · rw [helse ha, helse hb] at h
      exact spelled_injective (List.cons.inj h).2

/-- The action of a workspace with an empty directory. -/
def soloJob : Job := ⟨requestOf soloDigest soloArgs soloPlatform [] [] ["out".toList], []⟩

def soloHistory : List (Exchange Answer) :=
  [⟨.currentDir, (.ok "/w".toList : Except String Text)⟩,
    ⟨.detectPlatform, (.ok soloPlatform : Except String PlatformIdentity)⟩,
    ⟨.canonicalize "/w/src".toList, (.ok (some ["src".toList]) : Except String (Option Path))⟩,
    ⟨.workspace, ([(["src".toList], .directory)] : Workspace)⟩]

theorem takes_solo : Takes (prepare soloDigest soloArgs).run soloHistory (.done (.ok soloJob)) := by
  unfold soloHistory
  iterate 4 apply Takes.call
  exact .refl

def soloRan : Ran := ⟨true, "/s".toList, [104], [], [(["out".toList], .file [7] false)], 1, 2, by decide⟩

def soloOutput : Artifact := ⟨"out".toList, soloDigest [7], false⟩

def soloRecord : DeclaredActionRecord where
  protocol := PROTOCOL_VERSION
  key := soloJob.request.key
  name := ['n']
  platform := soloPlatform
  command := ["rustc".toList]
  environment := []
  inputs := []
  outputPaths := ["out".toList]
  outputs := [soloOutput]
  stdout := ⟨soloDigest [104], 1⟩
  stderr := ⟨soloDigest [], 0⟩
  executor := LOCAL_EXECUTOR
  createdMs := 1
  durationMs := 2

/-- Every call is answered as where nothing fails, and no record was there. -/
def soloAnswer : (c : Call) → Answer c
  | .currentDir => .ok "/w".toList
  | .detectPlatform => .ok soloPlatform
  | .canonicalize _ => .ok (some ["src".toList])
  | .workspace => [(["src".toList], .directory)]
  | .var _ => none
  | .readRecord _ => .ok none
  | .readBlob name => okOr (soloTable.find? fun bytes => soloDigest bytes = name) "no such blob"
  | .execute _ => .error "no server"
  | .sandbox _ _ => .ok soloRan
  | .report _ => ()
  | .openStore | .connect | .removeRecord _ | .putRecord _ | .putBlob _ _ | .restore _ _ | .print _ _ => .ok ()

/-- The run, once it has been answered `n` times. -/
def soloRun (n : Nat) : Asking (Except String Unit) := play soloAnswer n (runJob soloDigest true false soloJob).run

/-- A reachable state in which the run has been answered `n` times, and of
which it has put a record or none is there. -/
def SoloAt (n : Nat) (told : Told) (stored : Bool) : Prop :=
  ∃ t, Transition.Reachable (RunsStep soloDigest) (init soloDigest fun _ => (soloArgs, false)) t ∧
    t.clients ['1'] = .running soloJob (soloRun n) told ∧ (stored = false → ∀ key, t.records key = none)

theorem SoloAt.ask {n : Nat} {told : Told} {stored : Bool} (h : SoloAt n told stored)
    (hplain : (soloRun n).pending.any Call.plain = true) : SoloAt (n + 1) told stored := by
  obtain ⟨t, ht, hc, hrecords⟩ := h
  obtain ⟨c, hpending, hplain⟩ : ∃ c, (soloRun n).pending = some c ∧ c.plain = true := by
    simpa [Option.any_eq_true] using hplain
  obtain ⟨next, hnow, hnext⟩ := play_succ n hpending
  rw [soloRun, hnow] at hc
  refine ⟨_, ht.tail (a := .ask ['1']) (.ask (soloAnswer c) hc hplain), ?_, hrecords⟩
  rw [goes, clients_put, if_pos rfl, told_after_plain _ hplain, soloRun, hnext]

theorem SoloAt.read {n : Nat} {told : Told} {key : Text} (h : SoloAt n told false)
    (hpending : (soloRun n).pending = some (.readRecord key)) : SoloAt (n + 1) told false := by
  obtain ⟨t, ht, hc, hrecords⟩ := h
  obtain ⟨next, hnow, hnext⟩ := play_succ n hpending
  rw [soloRun, hnow] at hc
  refine ⟨_, ht.tail (a := .read ['1']) (.read hc), ?_, hrecords⟩
  rw [goes, clients_put, if_pos rfl, hrecords rfl, soloRun, hnext]
  rfl

theorem SoloAt.sandbox {n : Nat} {told : Told} {request : ExecuteRequest} {inputs : List Collected} {stored : Bool}
    (h : SoloAt n told stored) (hpending : (soloRun n).pending = some (.sandbox request inputs)) :
    SoloAt (n + 1) { told with ran := soloRan :: told.ran } stored := by
  obtain ⟨t, ht, hc, hrecords⟩ := h
  obtain ⟨next, hnow, hnext⟩ := play_succ n hpending
  rw [soloRun, hnow] at hc
  refine ⟨_, ht.tail (a := .sandbox ['1']) (.sandbox soloRan hc), ?_, hrecords⟩
  rw [goes, clients_put, if_pos rfl, soloRun, hnext]
  rfl

theorem SoloAt.put {n : Nat} {told : Told} {record : DeclaredActionRecord} (h : SoloAt n told false)
    (hpending : (soloRun n).pending = some (.putRecord record)) : SoloAt (n + 1) told true := by
  obtain ⟨t, ht, hc, hrecords⟩ := h
  obtain ⟨next, hnow, hnext⟩ := play_succ n hpending
  rw [soloRun, hnow] at hc
  refine ⟨_, ht.tail (a := .put ['1']) (.put hc (.inl (hrecords rfl _))), ?_, fun hfalse => by cases hfalse⟩
  rw [goes, clients_put, if_pos rfl, soloRun, hnext]
  rfl

/-- The run, prepared. -/
theorem solo_begun : SoloAt 0 ⟨[], []⟩ false := by
  let s₀ : Runs := init soloDigest fun _ => (soloArgs, false)
  have hinit : Transition.Reachable (RunsStep soloDigest) s₀
      (s₀.put ['1'] (.preparing true false (prepare soloDigest soloArgs).run)) := by
    have hsame : s₀.put ['1'] (.preparing true false (prepare soloDigest soloArgs).run) = s₀ := put_self
    rw [hsame]
    exact .refl
  have hstarted := (reachable_prepared takes_solo hinit).tail (a := .start ['1'])
    (.start (by rw [clients_put, if_pos rfl]))
  exact ⟨_, hstarted, by rw [clients_put, if_pos rfl]; rfl, fun _ _ => rfl⟩

/-- The run, told what it is until it restores its own record. -/
theorem solo_restoring : SoloAt 11 ⟨[], [soloRan]⟩ true := by
  have hplain : ∀ n ∈ [0, 3, 4, 5, 6, 8, 9, 10], (soloRun n).pending.any Call.plain = true := by decide +kernel
  have hread := (solo_begun.ask (hplain 0 (by decide))).read
    (by decide +kernel : (soloRun 1).pending = some (.readRecord soloJob.request.key))
  have hran := hread.sandbox (by decide +kernel : (soloRun 2).pending = some (.sandbox soloJob.request []))
  have hblobs := (((hran.ask (hplain 3 (by decide))).ask (hplain 4 (by decide))).ask (hplain 5 (by decide))).ask
    (hplain 6 (by decide))
  have hput := hblobs.put (by decide +kernel : (soloRun 7).pending = some (.putRecord soloRecord))
  exact ((hput.ask (hplain 8 (by decide))).ask (hplain 9 (by decide))).ask (hplain 10 (by decide))

theorem reachable_restores_solo : ∃ (s : Runs) (next : Answer (.restore soloRecord [(soloOutput, [7])]) →
    Asking (Except String Unit)), s.clients ['1'] = .running soloJob (.call (.restore soloRecord [(soloOutput, [7])]) next)
      ⟨[], [soloRan]⟩ ∧ s.Safe soloDigest := by
  obtain ⟨s, hs, hc, -⟩ := solo_restoring
  obtain ⟨next, hnow, -⟩ := play_succ 11
    (by decide +kernel : (soloRun 11).pending = some (.restore soloRecord [(soloOutput, [7])]))
  rw [soloRun, hnow] at hc
  exact ⟨s, next, hc, reachable_restores soloDigest_injective _ hs⟩

end Runs

end Bellows.Cli.Declared
