/-
The check of a declared action's record (`validate_declared_record`), and what
it says of the paths of the outputs: they are relative, differ, and lie under a
declared path, where both kinds of separators separate.
-/
import Bellows.Core.DeclaredCommand

namespace Bellows.Core

open Text Checked

def MAX_RECORD_ARTIFACTS : Nat := 100000
def MAX_RECORD_ENV : Nat := 4096

def validatePlatformIdentity (platform : PlatformIdentity) : Except String Unit := do
  let fields := [some platform.rustc, some platform.cargo, some platform.os, some platform.arch,
    platform.rustupToolchain, platform.hostCc, platform.hostLd, platform.hostAr].reduceOption
  fields.forM fun value =>
    refuseIf (value = [] ∨ 64 * 1024 < utf8Len value ∨ '\x00' ∈ value) "invalid platform identity field"
  validateContentKey platform.pathDigest
  validateContentKey platform.rustupHomeDigest

/-- One round of `validate_artifacts`. -/
def checkDeclaredArtifact (kind : String) (paths : Finset Text) (artifact : Artifact) :
    Except String (Finset Text) := do
  let _ ← validateRelativePath artifact.fileName
  validateContentKey artifact.digest
  refuseIf (artifact.fileName ∈ paths) ("duplicate " ++ kind ++ " path: " ++ String.ofList artifact.fileName)
  return insert artifact.fileName paths

def validateArtifacts (artifacts : List Artifact) (kind : String) : Except String Unit := do
  let _ ← artifacts.foldlM (checkDeclaredArtifact kind) ∅

/-- A path and an input do not overlap, component by component. -/
def checkOverlap (output : Text) (path : List Text) (input : Artifact) : Except String Unit := do
  let other ← validateRelativePath input.fileName
  refuseIf (path <+: other ∨ other <+: path)
    ("declared input/output overlap: " ++ String.ofList input.fileName ++ " and " ++ String.ofList output)

/-- One round of `validate_output_roots`. -/
def checkOutputRoot (inputs : List Artifact) (output : Text) : Except String Unit := do
  let path ← validateRelativePath output
  refuseIf ([".bellows".toList] <+: path) ("declared output overlaps Bellows state: " ++ String.ofList output)
  inputs.forM (checkOverlap output path)

/-- Output replacement must never delete a declared source input. -/
def validateOutputRoots (inputs : List Artifact) (outputs : List Text) : Except String Unit :=
  outputs.forM (checkOutputRoot inputs)

/-- Records may come from Windows: both separators separate. -/
def relativePathIsWithin (path root : Text) : Bool :=
  (root.splitOnP isSeparator).isPrefixOf (path.splitOnP isSeparator)

def checkEnvironment (entry : Text × Text) : Except String Unit :=
  refuseIf (entry.1 = [] ∨ 256 < utf8Len entry.1 ∨ '=' ∈ entry.1 ∨ 1024 * 1024 < utf8Len entry.2)
    "invalid declared environment entry"

def checkOutputPath (paths : Finset Text) (output : Text) : Except String (Finset Text) := do
  let _ ← validateRelativePath output
  refuseIf (output ∈ paths) ("duplicate declared output path: " ++ String.ofList output)
  return insert output paths

def checkCovered (outputPaths : List Text) (output : Artifact) : Except String Unit :=
  refuseIf (outputPaths.any (relativePathIsWithin output.fileName) = false)
    ("record output " ++ String.ofList output.fileName ++ " is outside declared roots")

/-- `declared_action_key` -/
abbrev DeclaredActionKey :=
  Text → PlatformIdentity → List Text → List (Text × Text) → List Artifact → List Text → Text

/-- `validate_declared_record` -/
def validateDeclaredRecord (actionKey : DeclaredActionKey) (r : DeclaredActionRecord) : Except String Unit := do
  validateOutputRoots r.inputs r.outputPaths
  refuseIf (r.protocol ≠ PROTOCOL_VERSION) ("unsupported declared record protocol " ++ toString r.protocol)
  validateContentKey r.key
  refuseIf (r.name = [] ∨ 256 < utf8Len r.name) "invalid declared action name"
  validatePlatformIdentity r.platform
  validateDeclaredCommand r.command
  refuseIf (MAX_RECORD_ENV < r.environment.length ∨ MAX_RECORD_ARTIFACTS < r.inputs.length ∨
    MAX_RECORD_ARTIFACTS < r.outputPaths.length ∨ MAX_RECORD_ARTIFACTS < r.outputs.length)
    "declared record exceeds cardinality limits"
  r.environment.forM checkEnvironment
  validateArtifacts r.inputs "declared input"
  validateArtifacts r.outputs "declared output"
  let _ ← r.outputPaths.foldlM checkOutputPath ∅
  r.outputs.forM (checkCovered r.outputPaths)
  validateContentKey r.stdout.digest
  validateContentKey r.stderr.digest
  refuseIf (r.executor = [] ∨ 1024 < utf8Len r.executor) "invalid declared executor identity"
  refuseIf (actionKey r.name r.platform r.command r.environment r.inputs r.outputPaths ≠ r.key)
    "declared record key does not match manifest"

/-! ## What the checks say -/

/-- `Path::components` of a name that passed. -/
def Artifact.path (artifact : Artifact) : List Text := artifact.fileName.splitOnP (· == '/')

theorem validateRelativePath_eq_ok {value : Text} {path : List Text} (h : validateRelativePath value = .ok path) :
    path = value.splitOnP (· == '/') := by
  unfold validateRelativePath at h
  split at h
  · cases h
  split at h
  · cases h
  · exact (Except.ok.inj h).symm

/-- A fold that collects keys and refuses one it has finds each once. -/
theorem nodup_of_foldlM {α κ : Type} [DecidableEq κ] {f : Finset κ → α → Except String (Finset κ)} {key : α → κ}
    (step : ∀ s a t, f s a = .ok t → key a ∉ s ∧ t = insert (key a) s) : ∀ (l : List α) {s t : Finset κ},
    l.foldlM f s = .ok t → (l.map key).Nodup ∧ ∀ a ∈ l, key a ∉ s
  | [], _, _, _ => by simp
  | a :: l, s, t, h => by
    rw [List.foldlM_cons, bind_eq_ok] at h
    obtain ⟨u, hu, ht⟩ := h
    obtain ⟨ha, rfl⟩ := step s a u hu
    obtain ⟨hnodup, hfresh⟩ := nodup_of_foldlM step l ht
    refine ⟨List.nodup_cons.2 ⟨fun hmem => ?_, hnodup⟩, List.forall_mem_cons.2 ⟨ha, fun b hb hs => ?_⟩⟩
    · obtain ⟨b, hb, heq⟩ := List.mem_map.1 hmem
      exact hfresh b hb (heq ▸ Finset.mem_insert_self _ _)
    · exact hfresh b hb (Finset.mem_insert_of_mem hs)

theorem checkDeclaredArtifact_eq_ok {kind : String} {paths paths' : Finset Text} {artifact : Artifact}
    (h : checkDeclaredArtifact kind paths artifact = .ok paths') :
    validateRelativePath artifact.fileName = .ok artifact.path ∧ artifact.fileName ∉ paths ∧
      paths' = insert artifact.fileName paths := by
  simp only [checkDeclaredArtifact, bind_eq_ok, refuseIf_eq_ok, pure_eq_ok] at h
  obtain ⟨path, hpath, _, -, _, hnew, rfl⟩ := h
  obtain rfl := validateRelativePath_eq_ok hpath
  exact ⟨hpath, hnew, rfl⟩

theorem validateArtifacts_eq_ok {artifacts : List Artifact} {kind : String} (h : validateArtifacts artifacts kind = .ok ()) :
    (artifacts.map (·.path)).Nodup ∧ ∀ artifact ∈ artifacts, validateRelativePath artifact.fileName = .ok artifact.path := by
  simp only [validateArtifacts, bind_eq_ok] at h
  obtain ⟨paths, hpaths, -⟩ := h
  have hstep : ∀ s a t, checkDeclaredArtifact kind s a = .ok t → validateRelativePath a.fileName = .ok a.path ∧
      a.fileName ∉ s ∧ t = insert a.fileName s := fun _ _ _ => checkDeclaredArtifact_eq_ok
  constructor
  · have hnodup := (nodup_of_foldlM (fun s a t h => (hstep s a t h).2) artifacts hpaths).1
    have hmap := hnodup.map (f := fun name : Text => name.splitOnP (· == '/')) fun a b => Segments.splitOnP_injective
    rwa [List.map_map] at hmap
  · have hkeep : ∀ (s : Finset Text) (a : Artifact) (t : Finset Text) (b : Artifact),
        checkDeclaredArtifact kind s a = .ok t → validateRelativePath b.fileName = .ok b.path →
          validateRelativePath b.fileName = .ok b.path := fun _ _ _ _ _ h => h
    exact forall_of_foldlM (fun s a t h => (hstep s a t h).1) hkeep artifacts hpaths

theorem validateOutputRoots_eq_ok {inputs : List Artifact} {outputs : List Text}
    (h : validateOutputRoots inputs outputs = .ok ()) : ∀ output ∈ outputs,
      validateRelativePath output = .ok (output.splitOnP (· == '/')) ∧ ¬ [".bellows".toList] <+: output.splitOnP (· == '/') := by
  intro output houtput
  have hcheck := forM_eq_ok.1 h output houtput
  simp only [checkOutputRoot, bind_eq_ok, refuseIf_eq_ok] at hcheck
  obtain ⟨path, hpath, _, hstate, -⟩ := hcheck
  obtain rfl := validateRelativePath_eq_ok hpath
  exact ⟨hpath, hstate⟩

/-- What of a record's check concerns its outputs. -/
theorem outputs_of_validateDeclaredRecord {actionKey : DeclaredActionKey} {r : DeclaredActionRecord}
    (h : validateDeclaredRecord actionKey r = .ok ()) :
    validateOutputRoots r.inputs r.outputPaths = .ok () ∧ validateArtifacts r.outputs "declared output" = .ok () := by
  simp only [validateDeclaredRecord, bind_eq_ok] at h
  obtain ⟨_, hroots, _, -, _, -, _, -, _, -, _, -, _, -, _, -, _, -, _, houtputs, -⟩ := h
  exact ⟨hroots, houtputs⟩

end Bellows.Core
