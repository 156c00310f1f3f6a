/-
Making a candidate of a compile (`capture_outputs`), and asking later whether
it may be restored (`validate_candidate`).

How text that is stored is rewritten, and what an rlib bundles, only decides
digests and whether there is a candidate at all; both are asked from outside,
as is the compile's list of outputs.
-/
import Bellows.Cli.Leak
import Bellows.Cli.Roots
import Bellows.Lib.KeyedSort

namespace Bellows.Cli

open Text Bellows.Core

def DIAGNOSTIC_WIDTH_INPUT : Text := "@bellows:diagnostic-width".toList

def ANY_DIAGNOSTIC_WIDTH : Text := ['*']

/-- `String::from_utf8` -/
def fromUtf8 (bytes : List UInt8) : Option Text := (String.fromUTF8? ⟨bytes.toArray⟩).map String.toList

/-- What a capture or a validation asks of the machine it runs on. -/
structure Machine extends Process where
  /-- `digest_bytes`, of text. -/
  digestBytes : Text → Text
  /-- `compiler_action_key` -/
  actionKey : Text → List FileInput → List FileInput → List EnvInput → Text
  /-- How deep directories are walked. -/
  fuel : Nat

def Machine.world (m : Machine) (identity : Identity) (started : Int) : World where
  fs := m.fs
  identity := identity
  started := started
  digestBytes := m.digestBytes
  fuel := m.fuel

/-- A compile that succeeded, and what it left behind. -/
structure Compile where
  invocation : Invocation
  crateName : Text
  outDir : Text
  /-- The outputs: the expected ones of a library, those found of a link. -/
  names : List Text
  procMacros : List Text
  stdout : List UInt8
  stderr : List UInt8
  started : Int
  createdMs : Nat
  link : Option LinkInputs
  /-- `fs::read`, of an output. -/
  read : Text → Option (List UInt8)
  /-- `is_executable` -/
  executable : Text → Option Bool
  /-- `digest_bytes`, of an output. -/
  digestOutput : List UInt8 → Text
  /-- `transform_dep_info` and `transform_compiler_stream` -/
  transformDepInfo : List UInt8 → List UInt8
  transformStream : List UInt8 → List UInt8
  /-- `check_bundled_members` -/
  checkBundledMembers : List UInt8 → Except CaptureError Unit

/-! ## Outputs -/

/-- A root and the scanner for it. -/
abbrev Scanners := List (Text × Scanner)

def scannersOf (a : BuildIdentity) : Scanners :=
  scannedRoots.map fun token => (token, Scanner.new (a.rootNormalizer.spellings token))

def endsWith (text suffix : Text) : Bool := suffix.isSuffixOf text

/-- Linker-written companions, which record the linker's own paths. -/
def programDatabase (compile : Compile) (name : Text) : Bool :=
  compile.invocation.kind == .linked &&
    [".pdb", ".exp", ".lib"].any fun extension => endsWith (name.map Char.toLower) extension.toList

def leaksIn (compile : Compile) (name : Text) (scanner : Scanner) (bytes : List UInt8) : Bool :=
  if programDatabase compile name then scanner.leaksInProgramDatabase bytes else scanner.leaks bytes

/-- What the loop over the outputs has gathered. -/
structure Captured where
  leaked : List Text
  artifacts : List Artifact
  depText : Option Text

/-- One output's scan, a root at a time. -/
def addLeaks (compile : Compile) (name : Text) (bytes : List UInt8) (scanners : Scanners) (leaked : List Text) :
    List Text :=
  scanners.foldl (fun leaked entry =>
    if !leaked.contains entry.1 && leaksIn compile name entry.2 bytes then leaked ++ [entry.1] else leaked) leaked

/-- The output named `name`, once it is there. -/
def storeOutput (compile : Compile) (scanners : Scanners) (s : Captured) (name path : Text) :
    Except CaptureError Captured := do
  let raw ← ask "read" path (compile.read path)
  if endsWith name ".d".toList then
    match fromUtf8 raw with
    | none => throw (.failed "dep-info is not UTF-8")
    | some text =>
      let executable ← ask "is_executable" path (compile.executable path)
      return { s with
        artifacts := s.artifacts ++ [⟨name, compile.digestOutput (compile.transformDepInfo raw), executable⟩]
        depText := some text }
  else
    (if endsWith name ".rlib".toList then compile.checkBundledMembers raw else return () : Except CaptureError Unit)
    let executable ← ask "is_executable" path (compile.executable path)
    return { s with
      leaked := addLeaks compile name raw scanners s.leaked
      artifacts := s.artifacts ++ [⟨name, compile.digestOutput raw, executable⟩] }

/-- One round of the loop over the outputs; metadata alone may be missing
beside an rlib. -/
def captureOutput (m : Machine) (compile : Compile) (scanners : Scanners) (s : Captured) (name : Text) :
    Except CaptureError Captured :=
  let path := join compile.outDir name
  if m.fs.isFile path then storeOutput compile scanners s name path
  else if endsWith name ".rmeta".toList && compile.names.any (endsWith · ".rlib".toList) then return s
  else throw (.failed ("rustc succeeded but expected output " ++ display path ++ " is absent"))

/-! ## Environment -/

/-- `names_leaked_root`; the profile directory is inside the target
directory. -/
def namesLeakedRoot (leaked : List Text) (normalized : Text) : Bool :=
  leaked.any fun token =>
    decide (token <:+: normalized) || (token == TARGET && decide (PROFILE <:+: normalized))

/-- An environment variable the compile read. -/
def envInput (m : Machine) (a : BuildIdentity) (leaked : List Text) (name : Text) : EnvInput :=
  match a.envValue m.var name with
  | none => .capture m.digestBytes name none
  | some value =>
    let normalized := a.rootNormalizer.normalize value
    if normalized ≠ value && !namesLeakedRoot leaked normalized then
      .captureNormalized m.digestBytes name normalized
    else .capture m.digestBytes name (some value)

/-- The pins of the roots that leaked. -/
def leakedPins (a : BuildIdentity) (leaked : List Text) : List (Text × Text) :=
  a.pins.filter fun pin => leaked.any fun token => endsWith pin.1 token

/-- `has_rendered_diagnostics` -/
def hasRenderedDiagnostics (stream : List UInt8) : Bool :=
  (stream.splitOnP (· == 0x0A)).any fun line =>
    let isSpace : UInt8 → Bool := fun b => [0x09, 0x0A, 0x0C, 0x0D, 0x20].contains b
    let line := ((line.dropWhile isSpace).reverse.dropWhile isSpace).reverse
    line != [] && !(utf8 "\x7b\"$message_type\":\"artifact\"".toList).isPrefixOf line

/-- The width the diagnostics were rendered for, or any. -/
def recordedWidth (a : BuildIdentity) (compile : Compile) : Text :=
  if hasRenderedDiagnostics compile.stdout || hasRenderedDiagnostics compile.stderr then a.width
  else ANY_DIAGNOSTIC_WIDTH

/-- The names of `# env-dep:` comments. A name with two values there is asked
for twice, with one answer. -/
def envDeps (depText : Text) : List Text := ((parseDepInfo depText).2.image (·.1)).sort

/-- `env_inputs`, before they are sorted. -/
def envInputs (m : Machine) (a : BuildIdentity) (compile : Compile) (leaked names : List Text) : List EnvInput :=
  names.map (envInput m a leaked) ++
    (leakedPins a leaked).map (fun pin => .capture m.digestBytes pin.1 (some pin.2)) ++
    [.capture m.digestBytes DIAGNOSTIC_WIDTH_INPUT (some (recordedWidth a compile))]

/-! ## Candidates -/

def streamArtifact (compile : Compile) (stream : List UInt8) : StreamArtifact where
  digest := compile.digestOutput (compile.transformStream stream)
  len := (compile.transformStream stream).length

/-- The candidate made of what was captured. -/
def candidateOf (m : Machine) (a : BuildIdentity) (compile : Compile) (s : Captured) (inputs : Inputs)
    (depText : Text) : ActionCandidate :=
  let env := KeyedSort.sortedBy EnvInput.name (envInputs m a compile s.leaked (envDeps depText))
  { protocol := PROTOCOL_VERSION
    staticKey := a.staticKey
    actionKey := m.actionKey a.staticKey inputs.files inputs.hostFiles env
    crateName := compile.crateName
    createdMs := compile.createdMs
    files := inputs.files
    hostFiles := inputs.hostFiles
    env := env
    artifacts := s.artifacts
    stdout := streamArtifact compile compile.stdout
    stderr := streamArtifact compile compile.stderr
    procMacros := compile.procMacros }

/-- The manifest's own check; what is too large is declined. -/
def checkedCandidate (m : Machine) (candidate : ActionCandidate) : Except CaptureError ActionCandidate :=
  match validateCandidateManifest m.actionKey candidate with
  | .ok _ => return candidate
  | .error error =>
    if "cardinality".toList <:+: error.toList then throw (.notStored error) else throw (.failed error)

/-- `capture_outputs` -/
def captureOutputs (m : Machine) (a : BuildIdentity) (compile : Compile) : Except CaptureError ActionCandidate := do
  let captured ← compile.names.foldlM (captureOutput m compile (scannersOf a)) ⟨[], [], none⟩
  match captured.depText with
  | none => throw (.failed "rustc did not produce dep-info")
  | some depText =>
    let inputs ← compilerInputs (m.world a.toIdentity compile.started) compile.invocation depText compile.link
    checkedCandidate m (candidateOf m a compile captured inputs depText)

/-! ## Build scripts -/

namespace BuildScript

/-- `declared_inputs`: the variables of `rerun-if-env-changed` directives. -/
def declaredEnv (stdout : Text) : List Text :=
  (lines stdout).filterMap fun line =>
    ((stripPrefix? "cargo::".toList line).or (stripPrefix? "cargo:".toList line)).bind
      (stripPrefix? "rerun-if-env-changed=".toList)

/-- `leaked`: the roots that the packed tree names. -/
def leakedRoots (a : BuildIdentity) (tree : List UInt8) : List Text :=
  ((scannersOf a).filter fun entry => entry.2.leaks tree).map (·.1)

/-- A variable the script declared. -/
def envInput (m : Machine) (a : BuildIdentity) (leaked : List Text) (name : Text) : EnvInput :=
  match m.var name with
  | none => .capture m.digestBytes name none
  | some value =>
    let normalized := a.rootNormalizer.normalize value
    if normalized ≠ value && leaked.isEmpty then .captureNormalized m.digestBytes name normalized
    else .capture m.digestBytes name (some value)

/-- `env_inputs`, before they are sorted. -/
def envInputs (m : Machine) (a : BuildIdentity) (leaked : List Text) (stdout : Text) (listings : List (Text × Text)) :
    List EnvInput :=
  (declaredEnv stdout).map (envInput m a leaked) ++
    listings.map (fun listing => .capture m.digestBytes listing.1 (some listing.2)) ++
    (leakedPins a leaked).map fun pin => .capture m.digestBytes pin.1 (some pin.2)

/-- The inputs of the candidate made of a build script. -/
structure Record where
  files : List FileInput
  hostFiles : List FileInput
  env : List EnvInput
  deriving DecidableEq, Repr

/-- What `build_script::capture` records, where the script's output packs to
`tree`. -/
def capture (m : Machine) (a : BuildIdentity) (started : Int) (tree : List UInt8) (stdout : Text)
    (packageListing : Option Text) : Except CaptureError Record := do
  let captured ← inputs (m.world a.toIdentity started) stdout packageListing
  return {
    files := captured.files
    hostFiles := captured.hostFiles
    env := KeyedSort.sortedBy EnvInput.name (envInputs m a (leakedRoots a tree) stdout captured.listings) }

end BuildScript

/-! ## Validation -/

/-- Whether the candidate's diagnostics fit the terminal. -/
def widthMatches (m : Machine) (b : BuildIdentity) (candidate : ActionCandidate) : Bool :=
  match candidate.env.find? fun input => input.name = DIAGNOSTIC_WIDTH_INPUT with
  | some input => [ANY_DIAGNOSTIC_WIDTH, b.width].any fun value => input.valueDigest == some (m.digestBytes value)
  | none => b.diagnosticWidth.isNone

/-- What a variable that is no pin would be recorded as now. -/
def currentInput (m : Machine) (b : BuildIdentity) (input : EnvInput) : EnvInput :=
  let value := b.envValue m.var input.name
  if input.normalized then
    match value with
    | some value => .captureNormalized m.digestBytes input.name (b.rootNormalizer.normalize value)
    | none => .capture m.digestBytes input.name none
  else .capture m.digestBytes input.name value

/-- One environment input. -/
def checkEnv (m : Machine) (b : BuildIdentity) (input : EnvInput) : Except String Unit :=
  if PIN_PREFIX.isPrefixOf input.name then
    match b.pinValue input.name with
    | none => throw ("environment changed: " ++ display input.name)
    | some value =>
      if (EnvInput.capture m.digestBytes input.name (some value)).valueDigest ≠ input.valueDigest then
        throw ("environment changed: " ++ display input.name ++ " (the cached output embeds another checkout's path)")
      else return ()
  else if (currentInput m b input).valueDigest ≠ input.valueDigest then
    throw ("environment changed: " ++ display input.name)
  else return ()

/-- Whether a recorded file is what it was. -/
def checkDigest (m : Machine) (b : BuildIdentity) (input : FileInput) (path : Text) : Except String Unit :=
  match BuildScript.inputDigest (m.world b.toIdentity 0) path with
  | .error _ => throw ("input disappeared: " ++ display input.path)
  | .ok actual => if actual ≠ input.digest then throw ("input changed: " ++ display input.path) else return ()

/-- Where a normalized path leads in the checkout that validates. -/
def localizedPath (b : BuildIdentity) (normalized : Text) : Text :=
  absolutePath (b.normalizer.localize normalized) b.workspace

/-- One file under a root. -/
def checkFile (m : Machine) (b : BuildIdentity) (input : FileInput) : Except String Unit :=
  if outsideCheckoutRoots input.path && foreignCheckout m.fs (localizedPath b input.path) b.checkout then
    throw ("input changed: " ++ display input.path ++ " belongs to another checkout")
  else checkDigest m b input (localizedPath b input.path)

/-- One file of the host. -/
def checkHostFile (m : Machine) (b : BuildIdentity) (input : FileInput) : Except String Unit :=
  if foreignCheckout m.fs input.path b.checkout then
    throw ("input changed: " ++ display input.path ++ " belongs to another checkout")
  else checkDigest m b input input.path

/-- `validate_candidate` -/
def validateCandidate (m : Machine) (b : BuildIdentity) (candidate : ActionCandidate) : Except String Unit := do
  validateCandidateManifest m.actionKey candidate
  if !widthMatches m b candidate then
    throw ("environment changed: diagnostic width (cached diagnostics were rendered for another terminal width)")
  else
    let others := candidate.env.filter fun input => input.name ≠ DIAGNOSTIC_WIDTH_INPUT
    -- named variables before pins, so a miss names the variable
    (others.filter fun input => !PIN_PREFIX.isPrefixOf input.name).forM (checkEnv m b)
    (others.filter fun input => PIN_PREFIX.isPrefixOf input.name).forM (checkEnv m b)
    candidate.files.forM (checkFile m b)
    candidate.hostFiles.forM (checkHostFile m b)

end Bellows.Cli
