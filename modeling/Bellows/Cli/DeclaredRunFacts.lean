/-
What a declared run asks for, whatever it is answered: it restores and prints
only what it was told of or ran itself, checked against its record. And what an
execution's record has of the sandbox: every regular file below a declared
output, and nothing else.
-/
import Bellows.Cli.DeclaredRun

namespace Bellows.Cli.Declared

open Text Trees Checked Dialogue Bellows.Core
open Restore (Path Workspace)
open Service (ExecuteRequest dedupByName executedRecord)

variable {digest : Bytes → Text}

/-! ## What is collected -/

/-- Below `path` there is such a regular file, with nothing but directories on
the way. -/
def Below (t : Workspace) (path rest : Path) (bytes : Bytes) (executable : Bool) : Prop :=
  (∀ before, before <+: rest → before ≠ rest → nodeAt t (path ++ before) = some .directory) ∧
    nodeAt t (path ++ rest) = some (.file bytes executable)

section Collect

variable {t : Workspace} {path rest : Path} {files : List Collected} {bytes : Bytes} {executable : Bool}

theorem below_nil : Below t path [] bytes executable ↔ nodeAt t path = some (.file bytes executable) := by
  refine ⟨fun h => by simpa using h.2, fun h => ⟨fun before hbefore hne => ?_, by simpa using h⟩⟩
  exact absurd (List.prefix_nil.1 hbefore) hne

theorem below_cons {name : Text} : Below t path (name :: rest) bytes executable ↔
    nodeAt t path = some .directory ∧ Below t (path ++ [name]) rest bytes executable := by
  constructor
  · intro h
    obtain ⟨hdirs, hfile⟩ := h
    have hdir := hdirs [] List.nil_prefix (List.cons_ne_nil _ _).symm
    refine ⟨by simpa using hdir, fun before hbefore hne => ?_, by simpa using hfile⟩
    simpa using hdirs (name :: before) (List.cons_prefix_cons.2 ⟨rfl, hbefore⟩) (by simpa using hne)
  · intro h
    obtain ⟨hdir, hdirs, hfile⟩ := h
    refine ⟨fun before hbefore hne => ?_, by simpa using hfile⟩
    cases before with
    | nil => simpa using hdir
    | cons first before =>
      obtain ⟨rfl, hrest⟩ := List.cons_prefix_cons.1 hbefore
      simpa using hdirs before hrest (by simpa using hne)

/-- A file as it is collected. -/
def collectedAs (digest : Bytes → Text) (path : Path) (bytes : Bytes) (executable : Bool) : Collected :=
  (⟨['/'].intercalate path, digest bytes, executable⟩, bytes)

theorem collectFile_eq_ok (h : collectFile digest path bytes executable = .ok files) :
    files = [collectedAs digest path bytes executable] := by
  obtain ⟨_, -, h⟩ := bind_eq_ok.1 h
  exact (pure_eq_ok.1 h).symm

/-- The regular files at and below a path are what is collected. -/
theorem mem_collectTree {fuel : Nat} (h : collectTree digest t fuel path = .ok files) (file : Collected) :
    file ∈ files ↔ ∃ rest bytes executable, file = collectedAs digest (path ++ rest) bytes executable ∧
      Below t path rest bytes executable := by
  induction fuel generalizing path files with
  | zero => cases h
  | succ fuel ih =>
    rw [collectTree] at h
    split at h
    · cases h
    · cases h
    · cases h
    · next bytes executable hnode =>
      rw [collectFile_eq_ok h, List.mem_singleton]
      constructor
      · intro hfile
        exact ⟨[], bytes, executable, by simpa using hfile, below_nil.2 hnode⟩
      · intro hfound
        obtain ⟨rest, bytes', executable', rfl, hbelow⟩ := hfound
        cases rest with
        | nil =>
          have hsame := Option.some.inj (hnode.symm.trans (below_nil.1 hbelow))
          simp only [Restore.Node.file.injEq] at hsame
          rw [hsame.1, hsame.2, List.append_nil]
        | cons name rest =>
          rw [below_cons, hnode] at hbelow
          cases hbelow.1
    · next hnode =>
      obtain ⟨hall, honly⟩ := mem_foldlM_append h
      constructor
      · intro hfile
        obtain ⟨name, -, inner, hinner, hmem⟩ := (honly file hfile).resolve_left List.not_mem_nil
        obtain ⟨rest, bytes, executable, hsame, hbelow⟩ := (ih hinner).1 hmem
        exact ⟨name :: rest, bytes, executable, by simpa using hsame, below_cons.2 ⟨hnode, hbelow⟩⟩
      · intro hfound
        obtain ⟨rest, bytes, executable, hsame, hbelow⟩ := hfound
        cases rest with
        | nil =>
          rw [below_nil, hnode] at hbelow
          cases hbelow
        | cons name rest =>
          have hrest := (below_cons.1 hbelow).2
          have hname : name ∈ children t path := by
            rw [mem_children]
            cases rest with
            | nil => rw [below_nil.1 hrest]; rfl
            | cons next rest => rw [(below_cons.1 hrest).1]; rfl
          obtain ⟨inner, hinner, hmem⟩ := hall name hname
          exact hmem file ((ih hinner).2 ⟨rest, bytes, executable, by simpa using hsame, hrest⟩)

/-- The file is what a declared output is, or what is below one. -/
def Declares (t : Workspace) (outputs : List Text) (path : Path) (bytes : Bytes) (executable : Bool) : Prop :=
  ∃ output ∈ outputs, ∃ rest, path = output.splitOnP (· == '/') ++ rest ∧
    Below t (output.splitOnP (· == '/')) rest bytes executable

theorem Declares.nodeAt {outputs : List Text} (h : Declares t outputs path bytes executable) :
    nodeAt t path = some (.file bytes executable) := by
  obtain ⟨output, -, rest, rfl, hbelow⟩ := h
  exact hbelow.2

theorem mem_collectDeclarations {outputs : List Text} (h : collectDeclarations digest t outputs = .ok files)
    (file : Collected) : file ∈ files ↔ ∃ path bytes executable, file = collectedAs digest path bytes executable ∧
      Declares t outputs path bytes executable := by
  obtain ⟨hall, honly⟩ := mem_foldlM_append h
  have hone : ∀ {output inner}, collectDeclaration digest t output = .ok inner →
      collectTree digest t (depth t + 1) (output.splitOnP (· == '/')) = .ok inner := by
    intro output inner hinner
    obtain ⟨path, hpath, htree⟩ := bind_eq_ok.1 hinner
    rwa [validateRelativePath_eq_ok hpath] at htree
  constructor
  · intro hfile
    obtain ⟨output, houtput, inner, hinner, hmem⟩ := (honly file hfile).resolve_left List.not_mem_nil
    obtain ⟨rest, bytes, executable, hsame, hbelow⟩ := (mem_collectTree (hone hinner) file).1 hmem
    exact ⟨_, bytes, executable, hsame, output, houtput, rest, rfl, hbelow⟩
  · intro hfound
    obtain ⟨_, bytes, executable, hsame, output, houtput, rest, rfl, hbelow⟩ := hfound
    obtain ⟨inner, hinner, hmem⟩ := hall output houtput
    exact hmem file ((mem_collectTree (hone hinner) file).2 ⟨rest, bytes, executable, hsame, hbelow⟩)

end Collect

/-- What is dropped has a name twin that stays. -/
theorem mem_dedupByName {a : Artifact} : ∀ {l : List Artifact}, (∀ b ∈ l, ∀ c ∈ l, b.fileName = c.fileName → b = c) →
    (a ∈ dedupByName l ↔ a ∈ l)
  | [], _ => Iff.rfl
  | b :: rest, h => by
    have ih := mem_dedupByName (a := a) fun c hc d hd => h c (List.mem_cons_of_mem b hc) d (List.mem_cons_of_mem b hd)
    rw [dedupByName]
    split
    · next hnil => rw [hnil] at ih; simp [← ih]
    · next c kept hkept =>
      rw [hkept] at ih
      split
      · next hname =>
        have hc : c ∈ rest := by
          have ih' := mem_dedupByName (a := c) fun c hc d hd =>
            h c (List.mem_cons_of_mem b hc) d (List.mem_cons_of_mem b hd)
          exact ih'.1 (hkept ▸ List.mem_cons_self)
        obtain rfl := h b List.mem_cons_self c (List.mem_cons_of_mem b hc) hname
        simp [← ih]
      · simp [← ih]

/-! ## An execution's record -/

namespace Ran

variable {ran : Ran} {executor : Text} {request : ExecuteRequest} {inputs : List Collected}
  {record : DeclaredActionRecord} {blobs : List (Text × Bytes)}

theorem plain_of_nodeAt {path : Path} {node : Restore.Node} (h : nodeAt ran.tree path = some node) :
    ∀ name ∈ path, '/' ∉ name := by
  obtain ⟨entry, hentry, rfl⟩ := nodeAt_isSome_iff.1 (Option.isSome_of_mem h)
  exact ran.plain entry hentry

/-- A name tells the path. -/
theorem path_inj {path other : Path} {node node' : Restore.Node} (h : nodeAt ran.tree path = some node)
    (h' : nodeAt ran.tree other = some node') (hne : path ≠ []) (hne' : other ≠ [])
    (heq : ['/'].intercalate path = ['/'].intercalate other) : path = other := by
  have hsplit := congrArg (List.splitOn '/') heq
  rwa [List.splitOn_intercalate '/' (plain_of_nodeAt h) hne,
    List.splitOn_intercalate '/' (plain_of_nodeAt h') hne'] at hsplit

/-- What the record of a run says. -/
structure Recorded (digest : Bytes → Text) (ran : Ran) (executor : Text) (request : ExecuteRequest)
    (record : DeclaredActionRecord) : Prop where
  success : ran.success = true
  key : record.key = request.key
  stdout : record.stdout.digest = digest (ran.normalized ran.stdout)
  stderr : record.stderr.digest = digest (ran.normalized ran.stderr)
  outputs : ∀ artifact, artifact ∈ record.outputs ↔ ∃ path bytes executable,
    artifact = ⟨['/'].intercalate path, digest bytes, executable⟩ ∧
      Declares ran.tree request.outputs path bytes executable

theorem executed_ok (h : ran.executed digest executor request inputs = .ok (record, blobs)) :
    Recorded digest ran executor request record := by
  simp only [executed, bind_eq_ok, refuseIf_eq_ok, okOr_eq_ok] at h
  obtain ⟨_, hsuccess, files, hfiles, made, hmade, h⟩ := h
  obtain ⟨rfl, -⟩ := Prod.mk.inj (pure_eq_ok.1 h)
  have hcollected := mem_collectDeclarations hfiles
  have htwins : ∀ b ∈ files.map (·.1), ∀ c ∈ files.map (·.1), b.fileName = c.fileName → b = c := by
    intro b hb c hc hname
    obtain ⟨file, hfile, rfl⟩ := List.mem_map.1 hb
    obtain ⟨other, hother, rfl⟩ := List.mem_map.1 hc
    obtain ⟨path, bytes, executable, rfl, hdeclares⟩ := (hcollected file).1 hfile
    obtain ⟨path', bytes', executable', rfl, hdeclares'⟩ := (hcollected other).1 hother
    have hne : ∀ {path bytes executable}, Declares ran.tree request.outputs path bytes executable → path ≠ [] := by
      intro path bytes executable hpath
      obtain ⟨output, -, rest, rfl, -⟩ := hpath
      exact List.append_ne_nil_of_left_ne_nil (List.splitOnP_ne_nil _ _) _
    obtain rfl := path_inj hdeclares.nodeAt hdeclares'.nodeAt (hne hdeclares) (hne hdeclares') hname
    have hsame := Option.some.inj (hdeclares.nodeAt.symm.trans hdeclares'.nodeAt)
    simp only [Restore.Node.file.injEq] at hsame
    rw [hsame.1, hsame.2]
  unfold executedRecord at hmade
  split at hmade
  · cases hmade
  · obtain rfl := Option.some.inj hmade
    refine ⟨by simpa using hsuccess, rfl, rfl, rfl, fun artifact => ?_⟩
    have hsorted : ∀ b, b ∈ (files.map (·.1)).insertionSort (fun a b => a.fileName ≤ b.fileName) ↔
        b ∈ files.map (·.1) :=
      fun b => List.mem_insertionSort _
    have htwins' : ∀ b ∈ (files.map (·.1)).insertionSort (fun a b => a.fileName ≤ b.fileName),
        ∀ c ∈ (files.map (·.1)).insertionSort (fun a b => a.fileName ≤ b.fileName), b.fileName = c.fileName → b = c :=
      fun b hb c hc => htwins b ((hsorted b).1 hb) c ((hsorted c).1 hc)
    show artifact ∈ dedupByName _ ↔ _
    rw [finished, mem_dedupByName htwins', hsorted, List.mem_map]
    constructor
    · intro hfile
      obtain ⟨file, hfile, rfl⟩ := hfile
      obtain ⟨path, bytes, executable, rfl, hdeclares⟩ := (hcollected file).1 hfile
      exact ⟨path, bytes, executable, rfl, hdeclares⟩
    · intro hfile
      obtain ⟨path, bytes, executable, rfl, hdeclares⟩ := hfile
      exact ⟨_, (hcollected _).2 ⟨path, bytes, executable, rfl, hdeclares⟩, rfl⟩

end Ran

/-! ## What is prepared -/

/-- A job as `run_declared_action` makes it. -/
structure Job.Prepared (digest : Bytes → Text) (job : Job) : Prop where
  key : job.request.key = declaredActionKey digest job.request.name job.request.platform job.request.command
    job.request.environment job.request.inputs job.request.outputs
  inputs : job.request.inputs = job.inputs.map (·.1)
  sorted : job.request.inputs.Pairwise fun a b => a.fileName < b.fileName
  digested : ∀ file ∈ job.inputs, file.1.digest = digest file.2

/-- While a job is prepared anything may be asked. -/
def asksFreely : Monitor Answer Unit := ⟨fun _ _ => True, fun _ _ _ => ()⟩

/-- The program ends in such a value, whatever it is answered. -/
abbrev Yields {α : Type} (Q : α → Prop) (p : Program α) : Prop := Attempts asksFreely (fun _ => True) (fun _ => Q) p ()

theorem yields_tryAsk {α : Type} {Q : α → Prop} {c : Call} {read : Answer c → Except String α}
    (h : ∀ answer a, read answer = .ok a → Q a) : Yields Q (tryAsk c read) :=
  attempts_tryAsk trivial (fun _ => trivial) h

theorem yields_any {α : Type} {c : Call} {read : Answer c → Except String α} : Yields (fun _ => True) (tryAsk c read) :=
  yields_tryAsk fun _ _ _ => trivial

theorem yields_settled {α : Type} {Q : α → Prop} {result : Except String α} (h : ∀ a, result = .ok a → Q a) :
    Yields Q (settled result) := attempts_settled trivial h

theorem Yields.bind {α β : Type} {Q : α → Prop} {R : β → Prop} {p : Program α} {f : α → Program β} (h : Yields Q p)
    (hf : ∀ a, Q a → Yields R (f a)) : Yields R (p >>= f) := Attempts.bind h fun _ a _ ha => hf a ha

/-- Collected files are named with their content's digest. -/
def Digested (digest : Bytes → Text) (files : List Collected) : Prop := ∀ file ∈ files, file.1.digest = digest file.2

/-- Without collisions the digests tell the content. -/
theorem Digested.inj (hd : Function.Injective digest) : ∀ {files others : List Collected}, Digested digest files →
    Digested digest others → files.map (·.1) = others.map (·.1) → files = others
  | [], [], _, _, _ => rfl
  | [], _ :: _, _, _, h => by cases h
  | _ :: _, [], _, _, h => by cases h
  | (artifact, bytes) :: files, (other, bytes') :: others, hfiles, hothers, h => by
    obtain ⟨hfile, hfilesRest⟩ := List.forall_mem_cons.1 hfiles
    obtain ⟨hother, hothersRest⟩ := List.forall_mem_cons.1 hothers
    simp only [List.map_cons, List.cons.injEq] at h
    obtain ⟨rfl, hrest⟩ := h
    obtain rfl : bytes = bytes' := hd (hfile.symm.trans hother)
    rw [Digested.inj hd hfilesRest hothersRest hrest]

theorem declaredInput_yields (workspace path : Text) :
    Yields (Digested digest) (declaredInput digest workspace path) := by
  refine yields_any.bind fun canonical _ => ?_
  refine (yields_settled (Q := fun _ => True) fun _ _ => trivial).bind fun inside _ => ?_
  refine yields_any.bind fun t _ => yields_settled fun files hfiles file hfile => ?_
  obtain ⟨rest, bytes, executable, rfl, -⟩ := (mem_collectTree hfiles file).1 hfile
  rfl

theorem collectDeclaredInputs_yields (workspace : Text) : ∀ paths : List Text,
    Yields (Digested digest) (collectDeclaredInputs digest workspace paths)
  | [] => attempts_pure trivial fun file hfile => absurd hfile List.not_mem_nil
  | path :: paths => by
    refine (declaredInput_yields workspace path).bind fun files hfiles => ?_
    refine (collectDeclaredInputs_yields workspace paths).bind fun rest hrest => ?_
    refine attempts_pure trivial fun file hfile => ?_
    exact (List.mem_append.1 hfile).elim (hfiles file) (hrest file)

theorem declaredEnvironment_yields : ∀ names : List Text, Yields (fun _ => True) (declaredEnvironment names)
  | [] => attempts_pure trivial trivial
  | name :: names => by
    refine (yields_settled (Q := fun _ => True) fun _ _ => trivial).bind fun _ _ => ?_
    refine yields_any.bind fun value _ => ?_
    exact (declaredEnvironment_yields names).bind fun rest _ => attempts_pure trivial trivial

theorem prepare_yields (args : DeclaredRunArgs) : Yields (Job.Prepared digest) (prepare digest args) := by
  refine yields_any.bind fun workspace _ => ?_
  refine yields_any.bind fun platform _ => ?_
  refine (yields_settled (Q := fun _ => True) fun _ _ => trivial).bind fun _ _ => ?_
  refine (collectDeclaredInputs_yields workspace args.inputs).bind fun files hfiles => ?_
  refine (yields_settled (Q := fun _ => True) fun _ _ => trivial).bind fun outputs _ => ?_
  refine (yields_settled (Q := fun _ => True) fun _ _ => trivial).bind fun _ _ => ?_
  refine (declaredEnvironment_yields args.environment).bind fun environment _ => attempts_pure trivial ?_
  exact {
    key := rfl
    inputs := rfl
    sorted := List.pairwise_map.2 (KeyedSort.pairwise_sortedBy _ files)
    digested := fun file hfile => hfiles file (KeyedSort.mem_of_mem_sortedBy _ hfile) }

/-! ## What is asked for -/

/-- What a run has been told: records, and what came of its own sandbox. -/
structure Told where
  records : List DeclaredActionRecord
  ran : List Ran

def Told.after (told : Told) : (c : Call) → Answer c → Told
  | .readRecord _, .ok (some record) => { told with records := record :: told.records }
  | .execute _, .ok (_, record) => { told with records := record :: told.records }
  | .sandbox .., .ok ran => { told with ran := ran :: told.ran }
  | _, _ => told

section Asked

variable (digest : Bytes → Text) (job : Job)

/-- The record is of one's own run. -/
def Own (told : Told) (record : DeclaredActionRecord) : Prop :=
  ∃ ran ∈ told.ran, ∃ blobs, ran.executed digest LOCAL_EXECUTOR job.request job.inputs = .ok (record, blobs)

def Known (told : Told) (record : DeclaredActionRecord) : Prop := record ∈ told.records ∨ Own digest job told record

/-- These are the outputs of the record, each with its content. -/
structure Stages (record : DeclaredActionRecord) (staged : List Collected) : Prop where
  artifacts : staged.map (·.1) = record.outputs
  digested : Digested digest staged

/-- The streams are the record's. -/
def Streams (record : DeclaredActionRecord) (stdout stderr : Bytes) : Prop :=
  record.stdout.digest = digest stdout ∧ record.stderr.digest = digest stderr

def Allows (told : Told) : Call → Prop
  | .readRecord key => key = job.request.key
  | .putRecord record => Own digest job told record
  | .execute request => request = job.request
  | .sandbox request inputs => request = job.request ∧ inputs = job.inputs
  | .restore record staged => Known digest job told record ∧ Stages digest record staged
  | .print stdout stderr => (∃ ran ∈ told.ran, stdout = ran.stdout ∧ stderr = ran.stderr) ∨
      ∃ record, Known digest job told record ∧ Streams digest record stdout stderr
  | _ => True

def asked : Monitor Answer Told := ⟨Allows digest job, Told.after⟩

end Asked

section Program

variable {job : Job} {I : Told → Prop} {told : Told} {record : DeclaredActionRecord}

theorem report_attempts (hI : I told) (kind : String) :
    Attempts (asked digest job) I (fun _ _ => True) (report kind) told :=
  attempts_tryAsk trivial (fun _ => hI) fun _ _ _ => trivial

theorem verified_ok {name : Text} {answer : Except String Bytes} {bytes : Bytes}
    (h : verified digest name answer = .ok bytes) : name = digest bytes := by
  obtain ⟨bytes', -, h⟩ := bind_eq_ok.1 h
  obtain ⟨_, hname, h⟩ := bind_eq_ok.1 h
  obtain rfl := pure_eq_ok.1 h
  exact (not_not.1 (refuseIf_eq_ok.1 hname)).symm

theorem readBlob_attempts (hI : I told) (name : Text) :
    Attempts (asked digest job) I (fun _ bytes => name = digest bytes) (readBlob digest name) told :=
  attempts_tryAsk trivial (fun _ => hI) fun _ _ h => verified_ok h

theorem putBlob_attempts (hI : I told) (blob : Text × Bytes) :
    Attempts (asked digest job) I (fun _ _ => True) (putBlob digest blob) told :=
  (attempts_settled (Q := fun _ _ => True) hI fun _ _ => trivial).bind fun _ _ hI' _ =>
    attempts_tryAsk trivial (fun _ => hI') fun _ _ _ => trivial

theorem loadArtifacts_attempts : ∀ (artifacts : List Artifact) {told : Told}, I told →
    Attempts (asked digest job) I (fun _ staged => staged.map (·.1) = artifacts ∧ Digested digest staged)
      (loadArtifacts digest artifacts) told
  | [], _, hI => attempts_pure hI ⟨rfl, fun file hfile => absurd hfile List.not_mem_nil⟩
  | artifact :: artifacts, _, hI => by
    refine (readBlob_attempts hI artifact.digest).bind fun _ bytes hI' hbytes => ?_
    refine (loadArtifacts_attempts artifacts hI').bind fun _ rest hI'' hrest => attempts_pure hI'' ?_
    exact ⟨congrArg (artifact :: ·) hrest.1, List.forall_mem_cons.2 ⟨hbytes, hrest.2⟩⟩

theorem loadDeclaredRecord_attempts (hI : I told) (record : DeclaredActionRecord) :
    Attempts (asked digest job) I (fun _ loaded => Stages digest record loaded.staged ∧
      Streams digest record loaded.stdout loaded.stderr) (loadDeclaredRecord digest record) told := by
  refine (attempts_settled (Q := fun _ _ => True) hI fun _ _ => trivial).bind fun _ _ hI _ => ?_
  refine (loadArtifacts_attempts record.outputs hI).bind fun _ staged hI hstaged => ?_
  refine (readBlob_attempts hI record.stdout.digest).bind fun _ stdout hI hstdout => ?_
  refine (readBlob_attempts hI record.stderr.digest).bind fun _ stderr hI hstderr => ?_
  refine (attempts_settled (Q := fun _ _ => True) hI fun _ _ => trivial).bind fun _ _ hI _ => attempts_pure hI ?_
  exact ⟨⟨hstaged.1, hstaged.2⟩, hstdout, hstderr⟩

/-- A run that has been told enough. -/
abbrev Asks {α : Type} (digest : Bytes → Text) (job : Job) (p : Program α) (told : Told) : Prop :=
  Attempts (asked digest job) (fun _ => True) (fun _ _ => True) p told

theorem materializeDeclaredRecord_asks (hknown : Known digest job told record) {loaded : LoadedDeclared}
    (hstages : Stages digest record loaded.staged) (hstreams : Streams digest record loaded.stdout loaded.stderr) :
    Asks digest job (materializeDeclaredRecord record loaded) told := by
  have hrestore : Attempts (asked digest job) (fun told => Known digest job told record) (fun _ _ => True)
      (tryAsk (.restore record loaded.staged) id) told :=
    attempts_tryAsk ⟨hknown, hstages⟩ (fun _ => hknown) fun _ _ _ => trivial
  refine hrestore.bindTo (fun _ _ => trivial) fun _ _ hknown _ => ?_
  exact attempts_tryAsk (.inr ⟨record, hknown, hstreams⟩) (fun _ => trivial) fun _ _ _ => trivial

theorem restoreDeclaredRecord_asks (hknown : Known digest job told record) :
    Asks digest job (restoreDeclaredRecord digest record) told := by
  have hload := @loadDeclaredRecord_attempts digest job (fun told => Known digest job told record) told hknown record
  exact hload.bindTo (fun _ _ => trivial) fun _ _ hknown hloaded =>
    materializeDeclaredRecord_asks hknown hloaded.1 hloaded.2

theorem putDeclared_attempts (hown : Own digest job told record) :
    Attempts (asked digest job) (fun told => Own digest job told record) (fun _ _ => True)
      (putDeclared digest record) told :=
  (attempts_settled (I := fun told => Own digest job told record) (Q := fun _ _ => True) hown fun _ _ => trivial).bind
    fun _ _ hown _ => attempts_tryAsk hown (fun _ => hown) fun _ _ _ => trivial

theorem readDeclared_attempts : Attempts (asked digest job) (fun _ => True)
    (fun told found => ∀ record ∈ found, record ∈ told.records) (readDeclared digest job.request.key) told := by
  refine attempts_tryAsk rfl (fun _ => trivial) fun answer found hfound record hrecord => ?_
  obtain ⟨found', rfl, h⟩ := bind_eq_ok.1 hfound
  obtain ⟨_, -, h⟩ := bind_eq_ok.1 h
  obtain rfl := pure_eq_ok.1 h
  obtain rfl := Option.mem_def.1 hrecord
  exact List.mem_cons_self

theorem executeLocalDeclared_attempts : Attempts (asked digest job) (fun _ => True)
    (fun told made => Own digest job told made.1) (executeLocalDeclared digest job) told := by
  have hsandbox : Attempts (asked digest job) (fun _ => True) (fun told ran => ran ∈ told.ran)
      (tryAsk (.sandbox job.request job.inputs) id) told :=
    attempts_tryAsk ⟨rfl, rfl⟩ (fun _ => trivial) fun answer ran hran => by
      obtain rfl : answer = .ok ran := hran
      exact List.mem_cons_self
  refine hsandbox.bind fun told ran _ hran => ?_
  have hprint : Attempts (asked digest job) (fun told => ran ∈ told.ran) (fun _ _ => True)
      (tryAsk (.print ran.stdout ran.stderr) id) told :=
    attempts_tryAsk (.inl ⟨ran, hran, rfl, rfl⟩) (fun _ => hran) fun _ _ _ => trivial
  refine hprint.bindTo (fun _ _ => trivial) fun told _ hran _ => ?_
  exact attempts_settled trivial fun made hmade => ⟨ran, hran, made.2, hmade⟩

theorem publishLocally_attempts (hown : Own digest job told record) :
    Attempts (asked digest job) (fun told => Own digest job told record) (fun _ _ => True)
      (publishLocally digest record) told := by
  refine obeys_bind.2 (Obeys.mono (putDeclared_attempts hown) fun told result hresult => ?_)
  cases result with
  | ok _ => exact ⟨hresult.1, fun _ _ => trivial⟩
  | error _ => exact report_attempts hresult.1 _

theorem runFresh_asks : Asks digest job (runFresh digest job) told := by
  refine executeLocalDeclared_attempts.bind fun told made _ hown => ?_
  have hblobs := attempts_forM (m := asked digest job) (I := fun told => Own digest job told made.1) made.2 hown
    fun blob _ _ hown => putBlob_attempts hown blob
  refine hblobs.bindTo (fun _ _ => trivial) fun _ _ hown _ => ?_
  refine (publishLocally_attempts hown).bindTo (fun _ _ => trivial) fun _ _ hown _ => ?_
  exact (restoreDeclaredRecord_asks (.inr hown)).bind fun _ _ _ _ => report_attempts trivial _

theorem runRecorded_asks (hknown : record ∈ told.records) : Asks digest job (runRecorded digest job record) told := by
  have hload := @loadDeclaredRecord_attempts digest job (fun told => record ∈ told.records) told hknown record
  refine obeys_bind.2 (Obeys.mono hload fun told result hresult => ?_)
  cases result with
  | ok loaded =>
    obtain ⟨hstages, hstreams⟩ := hresult.2 loaded rfl
    exact (materializeDeclaredRecord_asks (.inl hresult.1) hstages hstreams).bind
      fun _ _ _ _ => report_attempts trivial _
  | error _ =>
    refine (report_attempts trivial _).bind fun _ _ _ _ => ?_
    exact (attempts_tryAsk (Q := fun _ _ => True) trivial (fun _ => trivial) fun _ _ _ => trivial).bind
      fun _ _ _ _ => runFresh_asks

theorem runRemotely_asks : Asks digest job (runRemotely digest job) told := by
  have hexecute : Attempts (asked digest job) (fun _ => True) (fun told made => made.2 ∈ told.records)
      (tryAsk (.execute job.request) id) told :=
    attempts_tryAsk rfl (fun _ => trivial) fun answer made hmade => by
      obtain rfl : answer = .ok made := hmade
      exact List.mem_cons_self
  refine hexecute.bind fun told made _ hmade => ?_
  refine (report_attempts (I := fun told => made.2 ∈ told.records) hmade _).bindTo (fun _ _ => trivial)
    fun _ _ hmade _ => ?_
  exact restoreDeclaredRecord_asks (.inl hmade)

theorem runHere_asks : Asks digest job (runHere digest job) told := by
  refine executeLocalDeclared_attempts.bind fun told made _ hown => ?_
  have hblobs := attempts_forM (m := asked digest job) (I := fun told => Own digest job told made.1) made.2 hown
    fun blob _ _ hown => putBlob_attempts hown blob
  refine hblobs.bindTo (fun _ _ => trivial) fun _ _ hown _ => ?_
  refine (putDeclared_attempts hown).bindTo (fun _ _ => trivial) fun _ _ hown _ => ?_
  refine (report_attempts (I := fun told => Own digest job told made.1) hown _).bindTo (fun _ _ => trivial)
    fun _ _ hown _ => ?_
  exact restoreDeclaredRecord_asks (.inr hown)

theorem runLocalDeclaredAction_asks : Asks digest job (runLocalDeclaredAction digest job) told := by
  refine (attempts_tryAsk (Q := fun _ _ => True) trivial (fun _ => trivial) fun _ _ _ => trivial).bind
    fun told _ _ _ => ?_
  refine readDeclared_attempts.bind fun told found _ hfound => ?_
  cases found with
  | some record => exact runRecorded_asks (hfound record rfl)
  | none => exact runFresh_asks

theorem runShared_asks (remoteExecution : Bool) : Asks digest job (runShared digest job remoteExecution) told := by
  refine (attempts_tryAsk (Q := fun _ _ => True) trivial (fun _ => trivial) fun _ _ _ => trivial).bind
    fun told _ _ _ => ?_
  refine readDeclared_attempts.bind fun told found _ hfound => ?_
  cases found with
  | some record =>
    exact (restoreDeclaredRecord_asks (.inl (hfound record rfl))).bind fun _ _ _ _ => report_attempts trivial _
  | none =>
    refine (attempts_forM _ trivial fun blob _ _ _ => putBlob_attempts trivial blob).bind fun told _ _ _ => ?_
    cases remoteExecution with
    | true => exact runRemotely_asks
    | false => exact runHere_asks

/-- Whatever it is answered, a run asks only for what it may. -/
theorem runJob_asks (localOnly remoteExecution : Bool) :
    Asks digest job (runJob digest localOnly remoteExecution job) told := by
  cases localOnly with
  | true => exact runLocalDeclaredAction_asks
  | false => exact runShared_asks remoteExecution

end Program

end Bellows.Cli.Declared
