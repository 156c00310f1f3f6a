/-
Environment inputs, and the check of a compiler candidate's manifest
(`validate_candidate_manifest`). Paths are the Unix build's; lengths are those
of a text's UTF-8 encoding. The action key is a hash of the manifest's inputs,
which is asked from outside.
-/
import Mathlib.Data.Finset.Insert
import Bellows.Core.Manifest
import Bellows.Core.PathNormalizer

namespace Bellows.Core

open Text

def PROTOCOL_VERSION : Nat := 6
def MAX_CANDIDATE_FILES : Nat := 100000
def MAX_CANDIDATE_ENV : Nat := 4096
def MAX_CANDIDATE_ARTIFACTS : Nat := 16

namespace EnvInput

/-- `EnvInput::capture`, given `digest_bytes`. -/
def capture (digestBytes : Text → Text) (name : Text) (value : Option Text) : EnvInput :=
  ⟨name, value.map digestBytes, false⟩

/-- `EnvInput::capture_normalized` -/
def captureNormalized (digestBytes : Text → Text) (name normalized : Text) : EnvInput :=
  ⟨name, some (digestBytes normalized), true⟩

@[simp] theorem capture_name (digestBytes : Text → Text) (name : Text) (value : Option Text) :
    (capture digestBytes name value).name = name := rfl

@[simp] theorem captureNormalized_name (digestBytes : Text → Text) (name normalized : Text) :
    (captureNormalized digestBytes name normalized).name = name := rfl

end EnvInput

/-! ## Parts of a manifest -/

def validateContentKey (key : Text) : Except String Unit :=
  if validContentKey key then return ()
  else throw "content key must be a lowercase 64-character BLAKE3 digest"

/-- Begins with a letter, a colon and a separator. -/
def isWindowsDrive : Text → Bool
  | letter :: ':' :: separator :: _ => letter.isAlpha && isSeparator separator
  | _ => false

def validateHostInputPath (value : Text) : Except String Unit :=
  if value = [] ∨ 4096 < utf8Len value ∨ '\x00' ∈ value then throw "host input path is empty or too long"
  else if !(value.head? == some '/' || isWindowsDrive value || "\\\\".toList.isPrefixOf value) then
    throw ("host input path is not absolute: " ++ String.ofList value)
  else if ((value.splitOnP isSeparator).drop 1).any fun segment => segment == ['.'] || segment == ['.', '.'] then
    throw ("host input path contains a forbidden segment: " ++ String.ofList value)
  else return ()

/-- `validate_relative_path`, with the path's components. No component is
special once the segments are checked. -/
def validateRelativePath (value : Text) : Except String (List Text) :=
  if value = [] ∨ value.head? = some '/' then
    throw ("path must be a non-empty relative path: " ++ String.ofList value)
  else if (value.splitOnP isSeparator).any forbiddenSegment then
    throw ("path contains a forbidden segment: " ++ String.ofList value)
  else return value.splitOnP (· == '/')

/-- One round of the loops over files: both share one set of paths. -/
def checkInput (validatePath : Text → Except String Unit) (paths : Finset Text) (file : FileInput) :
    Except String (Finset Text) := do
  validatePath file.path
  validateContentKey file.digest
  if file.path ∈ paths then throw ("duplicate candidate input path: " ++ String.ofList file.path)
  else return insert file.path paths

def checkProcMacro (name : Text) : Except String Unit :=
  if name = [] ∨ 256 < utf8Len name then throw "invalid candidate proc-macro name" else return ()

def checkEnvInput (names : Finset Text) (input : EnvInput) : Except String (Finset Text) := do
  if input.name = [] ∨ 256 < utf8Len input.name ∨ '=' ∈ input.name then
    throw "invalid candidate environment name"
  else if input.name ∈ names then
    throw ("duplicate candidate environment name: " ++ String.ofList input.name)
  else
    input.valueDigest.forM validateContentKey
    return insert input.name names

def checkArtifact (names : Finset Text) (artifact : Artifact) : Except String (Finset Text) := do
  let components ← validateRelativePath artifact.fileName
  if components.length ≠ 1 then
    throw ("compiler artifact must be a file name: " ++ String.ofList artifact.fileName)
  else
    validateContentKey artifact.digest
    if artifact.fileName ∈ names then
      throw ("duplicate compiler artifact: " ++ String.ofList artifact.fileName)
    else return insert artifact.fileName names

/-! ## The manifest -/

/-- The first checks, of the candidate as a whole. -/
def checkHeader (c : ActionCandidate) : Except String Unit := do
  if c.protocol ≠ PROTOCOL_VERSION then throw ("unsupported candidate protocol " ++ toString c.protocol)
  else
    validateContentKey c.staticKey
    validateContentKey c.actionKey
    if c.crateName = [] ∨ 256 < utf8Len c.crateName then throw "invalid candidate crate name"
    else if MAX_CANDIDATE_FILES < c.files.length ∨ MAX_CANDIDATE_ENV < c.env.length ∨
        MAX_CANDIDATE_ARTIFACTS < c.artifacts.length then
      throw "candidate manifest exceeds cardinality limits"
    else return ()

/-- The files of the checkout, then those of the host. -/
def checkInputs (c : ActionCandidate) : Except String Unit := do
  let paths ← c.files.foldlM (checkInput validateNormalizedInputPath) ∅
  if MAX_CANDIDATE_FILES < c.hostFiles.length ∨ MAX_CANDIDATE_ENV < c.procMacros.length then
    throw "candidate manifest exceeds cardinality limits"
  else
    let _ ← c.hostFiles.foldlM (checkInput validateHostInputPath) paths
    return ()

/-- `validate_candidate_manifest`; `actionKey` is `compiler_action_key`. -/
def validateCandidateManifest (actionKey : Text → List FileInput → List FileInput → List EnvInput → Text)
    (c : ActionCandidate) : Except String Unit := do
  checkHeader c
  checkInputs c
  c.procMacros.forM checkProcMacro
  let _ ← c.env.foldlM checkEnvInput ∅
  let _ ← c.artifacts.foldlM checkArtifact ∅
  validateContentKey c.stdout.digest
  validateContentKey c.stderr.digest
  if actionKey c.staticKey c.files c.hostFiles c.env ≠ c.actionKey then
    throw "candidate action key does not match dependency manifest"
  else return ()

end Bellows.Core
