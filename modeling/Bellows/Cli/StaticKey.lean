/-
The static key of a compile (`build_identity`): what of the command line, the
environment and the explicit inputs has to be the same before a stored result
is looked at.

The key is one hash over named fields, each with its lengths before it. Each
kind of field has names of its own, so that the fields tell the parts
(`staticKey_eq_iff`).
-/
import Bellows.Cli.FileTree
import Bellows.Cli.Invocation
import Bellows.Cli.LinkCommand
import Bellows.Core.ActionKey

namespace Bellows.Cli

open Text Bellows.Core Checked KeyedSort Encoding

/-- What `build_identity` asks of the machine it runs on. -/
structure Host extends Process where
  /-- `env::vars` -/
  vars : List (Text × Text)
  /-- `cfg!(windows)` -/
  windows : Bool
  /-- `compiler_identity`: what `rustc -vV` prints. -/
  compilerIdentity : OsText → Except CaptureError (List UInt8)
  /-- The hash, in hexadecimal. -/
  digest : List UInt8 → Text
  /-- `create_dir_all` succeeds. -/
  createDirAll : Text → Bool

/-! ## Arguments -/

/-- The rest of the arguments, where the one before may have made the next a
path, or one to be skipped. -/
def normalizeArguments (source : Option Text) (normalizer : PathNormalizer) : Bool → Bool → List Text → List Text
  | _, _, [] => []
  | pathValue, true, _ :: rest => normalizeArguments source normalizer pathValue false rest
  | pathValue, false, arg :: rest =>
    if arg = "-C".toList ∧ rest.head?.any ("incremental=".toList.isPrefixOf ·) then
      normalizeArguments source normalizer pathValue true rest
    else if "-Cincremental=".toList.isPrefixOf arg then normalizeArguments source normalizer pathValue false rest
    else if arg = "--diagnostic-width".toList then normalizeArguments source normalizer pathValue true rest
    else if "--diagnostic-width=".toList.isPrefixOf arg then normalizeArguments source normalizer pathValue false rest
    else
      let isPath := pathValue || source == some arg ||
        ["--out-dir=".toList, "--extern=".toList, "-Ldependency=".toList].any (·.isPrefixOf arg)
      (if isPath then normalizer.normalize arg else arg) ::
        normalizeArguments source normalizer (["--out-dir".toList, "--extern".toList, "-L".toList].contains arg) false rest

/-- The crate root. -/
def Analysis.source (a : Analysis) : Option Text := a.explicitInputs.head?

def normalizedCompilerArguments (a : Analysis) (normalizer : PathNormalizer) : List Text :=
  normalizeArguments a.source normalizer false false a.args

def diagnosticWidth (args : List Text) : Option Text := optionValue args "--diagnostic-width"

/-! ## Environment -/

def EXACT_ENVIRONMENT : List Text :=
  ["AR", "CC", "CXX", "DEBUG", "DYLD_LIBRARY_PATH", "HOME", "HOST", "INCLUDE", "LANG", "LC_ALL", "LD_LIBRARY_PATH",
    "LIB", "LIBPATH", "LIBRARY_PATH", "MACOSX_DEPLOYMENT_TARGET", "NM", "OBJCOPY", "OPT_LEVEL", "OUT_DIR", "PATH",
    "PROFILE", "RANLIB", "SDKROOT", "SOURCE_DATE_EPOCH", "STRIP", "TARGET", "TZ", "UCRTVersion",
    "UniversalCRTSdkDir", "VCINSTALLDIR", "VCToolsInstallDir", "VCToolsVersion", "VSINSTALLDIR", "WindowsSdkDir",
    "WindowsSDKVersion"].map String.toList

def EXCLUDED_CARGO_CONTROL : List Text :=
  ["CARGO_BUILD_JOBS", "CARGO_INCREMENTAL", "CARGO_MAKEFLAGS", "CARGO_PRIMARY_PACKAGE", "CARGO_TARGET_TMPDIR",
    "CARGO_TERM_COLOR", "CARGO_TERM_PROGRESS_WHEN", "CARGO_TERM_PROGRESS_WIDTH", "CARGO_TERM_QUIET",
    "CARGO_TERM_VERBOSE", "CLIPPY_TERMINAL_WIDTH", "RUSTC_WRAPPER", "RUSTC_WORKSPACE_WRAPPER", "RUSTUP_AUTO_INSTALL",
    "RUSTUP_TOOLCHAIN_SOURCE", "RUST_BACKTRACE", "RUST_LOG", "RUST_MIN_STACK", "RUST_RECURSION_COUNT",
    "RUST_TEST_THREADS"].map String.toList

/-- `PREFIXES` -/
def ENVIRONMENT_PREFIXES : List Text :=
  ["AR_", "CARGO_", "CC_", "CFLAGS", "CLIPPY_", "CPPFLAGS", "CXX_", "CXXFLAGS", "DEP_", "LDFLAGS", "RUST"].map
    String.toList

def BELLOWS_CONTROL : List Text :=
  ["BELLOWS_AUTH_TOKEN", "BELLOWS_READ_ONLY", "BELLOWS_DEMO_COMPILE_DELAY_MS", "BELLOWS_EVENT_LOG",
    "BELLOWS_LOCAL_ONLY", "BELLOWS_MAX_WAIT_MS", "BELLOWS_SERVER", "BELLOWS_STATE_DIR"].map String.toList

def SHELL_ENVIRONMENT : List Text := ["HOME", "LANG", "LC_ALL", "TZ"].map String.toList

def isRelevantEnvironmentName (name : Text) : Bool :=
  !BELLOWS_CONTROL.contains name && !EXCLUDED_CARGO_CONTROL.contains name &&
    (EXACT_ENVIRONMENT.contains name || ENVIRONMENT_PREFIXES.any (·.isPrefixOf name))

/-- `to_ascii_uppercase` -/
def toAsciiUppercase (text : Text) : Text := text.map Char.toUpper

def environmentSpelling (name : Text) : Text :=
  (EXACT_ENVIRONMENT.find? fun listed => toAsciiUppercase listed = toAsciiUppercase name).getD (toAsciiUppercase name)

/-- What `collect` makes a `BTreeMap` of: of the values of one name the last
stays. -/
def toMap (entries : List (Text × Text)) : List (Text × Text) := sortedBy Prod.fst entries.reverse

def relevantEnvironmentOf (vars : List (Text × Text)) (normalizer : PathNormalizer) (caseInsensitive : Bool) :
    List (Text × Text) :=
  toMap <| ((vars.map fun entry =>
    (if caseInsensitive then environmentSpelling entry.1 else entry.1, entry.2)).filter fun entry =>
      isRelevantEnvironmentName entry.1).map fun entry => (entry.1, normalizer.normalize entry.2)

inductive PathUse where
  | none
  /-- Only which program of this name is found. -/
  | linker (program : Text)
  | whole
  deriving DecidableEq, Repr

/-- `host_triple` -/
def hostTriple (version : List UInt8) : Option Text :=
  ((lines (Utf8.lossy version)).findSome? (stripPrefix? "host: ".toList)).map trim

def pathUseWith (a : Analysis) (host : Option Text) (vcEnvironment : Bool) : PathUse :=
  if a.kind ≠ .linked then .none
  else if (codegenValue a.args "linker").isSome then .whole
  else
    match codegenValue a.args "linker-flavor" with
    | some flavor => if flavor = "lld-link".toList then .linker "lld-link".toList else .whole
    | none =>
      match (optionValue a.args "--target").or host with
      | none => .whole
      | some triple =>
        if "wasm".toList.isPrefixOf triple && !contains triple "emscripten".toList then .none
        else if contains triple "msvc".toList then
          if vcEnvironment || !host.any fun host => contains host "windows".toList then .linker "link.exe".toList
          else .none
        else .whole

/-- `without_shell` -/
def withoutShell (windows : Bool) (environment : List (Text × Text)) (pathUse : PathUse) : List (Text × Text) :=
  environment.filter fun entry =>
    !SHELL_ENVIRONMENT.contains entry.1 &&
      !(windows && ["LD_LIBRARY_PATH".toList, "DYLD_LIBRARY_PATH".toList].contains entry.1) &&
      !(pathUse != .whole && entry.1 == "PATH".toList)

namespace Host

variable (h : Host)

def relevantEnvironment (normalizer : PathNormalizer) : List (Text × Text) :=
  relevantEnvironmentOf h.vars normalizer h.windows

def compileEnvironment (normalizer : PathNormalizer) (pathUse : PathUse) : List (Text × Text) :=
  withoutShell h.windows (h.relevantEnvironment normalizer) pathUse

def pathUse (a : Analysis) (host : Option Text) : PathUse :=
  pathUseWith a host (h.var "VCINSTALLDIR".toList).isSome

/-! ## Programs and files -/

/-- `executable_names` -/
def executableNames (program : Text) : List Text :=
  if h.windows && !endsWith (program.map Char.toLower) ".exe".toList then [program ++ ".exe".toList, program]
  else [program]

/-- A list of directories on Windows: a `;` inside quotes does not part them. -/
def splitQuoted : Bool → Text → List Text
  | _, [] => [[]]
  | quoted, c :: rest =>
    if c = '\x22' then splitQuoted (!quoted) rest
    else if c = ';' ∧ quoted = false then [] :: splitQuoted false rest
    else
      match splitQuoted quoted rest with
      | [] => [[c]]
      | dir :: dirs => (c :: dir) :: dirs

/-- `env::split_paths` -/
def splitPaths (pathEnv : Text) : List Text :=
  if h.windows then splitQuoted false pathEnv else pathEnv.splitOnP (· == ':')

/-- `resolve_program`: the first file of that name in a directory of `PATH`. -/
def resolveProgram (program pathEnv cwd : Text) : Option Text :=
  let paths := if (components program).length > 1 ∨ isAbsolute program then [join cwd program]
    else (h.splitPaths pathEnv).flatMap fun dir => (h.executableNames program).map (join dir)
  (paths.find? h.fs.isFile).bind h.fs.canonicalize

/-- What the resolution of native libraries looks at. -/
def world (workspace : Text) (a : Analysis) : World where
  fs := h.fs
  identity := ⟨workspace, h.normalizer workspace a.outDir a.source, h.compileCheckout workspace a.source⟩
  started := 0
  digestBytes := fun text => h.digest (utf8 text)
  fuel := 0

/-- One explicit input: its normalized path and its digest. -/
def staticInput (workspace : Text) (normalizer : PathNormalizer) (path : Text) : Except CaptureError (Text × Text) := do
  let absolute ← canonicalCompilerInput h.fs (absolutePath path workspace)
  let digest ← ask "digest" absolute (h.fs.digest absolute)
  return (normalizer.normalize absolute, digest)

/-- The program on `PATH`, by its content. -/
def linkerOnPath (workspace : Text) : PathUse → Except CaptureError (Option Text)
  | .linker program =>
    match h.resolveProgram program ((h.var "PATH".toList).getD []) workspace with
    | some path => do
      let digest ← ask "digest" path (h.fs.digest path)
      return some (program ++ ':' :: digest)
    | none => return some (program ++ ":not on PATH".toList)
  | _ => return none

end Host

/-! ## The key -/

/-- What is hashed, but for what never changes. -/
structure StaticParts where
  compiler : List UInt8
  kind : OutputKind
  args : List Text
  environment : List (Text × Text)
  linkerOnPath : Option Text
  inputs : List (Text × Text)
  deriving DecidableEq

def OutputKind.name : OutputKind → String
  | .library => "library"
  | .linked => "linked"

def DEP_INFO_FORMAT : Text := "rustc-space-escape-v5-structured-dep-info".toList

/-- How virtual paths are mapped. -/
def REMAP : Text :=
  ("remap-v2:$CARGO_HOME=/bellows/cargo-home;$CHECKOUT=/bellows/checkout;" ++
    "$WORKSPACE=<checkout- or cargo-home-relative>;$TARGET=/bellows/target;$PROFILE=/bellows/profile").toList

/-- `hash_field`, as `hash_key_field` does it. -/
def hashField (field : Text × List UInt8) : List UInt8 := hashKeyField field.1 field.2

/-- The fields, in the order they are hashed. -/
def StaticParts.fields (parts : StaticParts) : List (Text × List UInt8) :=
  [("protocol".toList, utf8 (toString PROTOCOL_VERSION).toList), ("compiler".toList, parts.compiler),
      ("dep-info-format".toList, utf8 DEP_INFO_FORMAT), ("output-kind".toList, utf8 parts.kind.name.toList)] ++
    parts.args.map (fun arg => ("arg".toList, utf8 arg)) ++ [("remap".toList, utf8 REMAP)] ++
    parts.environment.map (fun entry => ("env:".toList ++ entry.1, utf8 entry.2)) ++
    parts.linkerOnPath.toList.map (fun found => ("linker-on-path".toList, utf8 found)) ++
    parts.inputs.map fun input => ("input:".toList ++ input.1, utf8 input.2)

namespace Host

variable (h : Host)

/-- The parts of a compile's key. -/
def staticParts (workspace : Text) (a : Analysis) : Except CaptureError StaticParts := do
  let normalizer := h.normalizer workspace a.outDir a.source
  let compiler ← h.compilerIdentity a.rustc
  let pathUse := h.pathUse a (hostTriple compiler)
  let linkerOnPath ← h.linkerOnPath workspace pathUse
  let libraries ← resolveStaticLibraries (h.world workspace a) a.toInvocation
  let inputs ← (sortedPaths (a.explicitInputs ++ libraries)).mapM (h.staticInput workspace normalizer)
  return {
    compiler, linkerOnPath, inputs
    kind := a.kind
    args := normalizedCompilerArguments a normalizer
    environment := h.compileEnvironment normalizer pathUse }

def staticKey (parts : StaticParts) : Text := h.digest (parts.fields.flatMap hashField)

/-! ## The identity -/

/-- `user_cache_root` -/
def userCacheRoot : Option Text :=
  ((h.var "XDG_CACHE_HOME".toList).map fun root => join root "bellows".toList).or <|
    ((h.var "LOCALAPPDATA".toList).map fun root => join root "Bellows".toList).or <|
      (h.var "HOME".toList).map fun home => join home ".cache/bellows".toList

/-- The empty directory shown instead of one of the variable's value. -/
def stableDirectory (rootNormalizer : PathNormalizer) (root : Text) (entry : Text × Text) : Option (Text × Text) :=
  let normalized := rootNormalizer.normalize entry.2
  let stable := join root ((h.digest (utf8 normalized)).take 32)
  if !"CARGO_".toList.isPrefixOf entry.1 && (TARGET.isPrefixOf normalized || PROFILE.isPrefixOf normalized) &&
      h.fs.readDir entry.2 == some [] && h.createDirAll stable then
    some (entry.1, stable)
  else none

/-- `stable_empty_directories` -/
def stableEmptyDirectories (a : Analysis) (rootNormalizer : PathNormalizer) : List (Text × Text) :=
  if a.procMacroCrate then
    h.userCacheRoot.elim [] fun root =>
      toMap (h.vars.filterMap (h.stableDirectory rootNormalizer (join root "stable-dirs-v1".toList)))
  else []

/-- `build_identity` -/
def buildIdentity (a : Analysis) : Except CaptureError BuildIdentity := do
  let current ← Cli.ask "current_dir" [] h.currentDir
  let workspace ← Cli.ask "canonicalize" current (h.fs.canonicalize current)
  let parts ← h.staticParts workspace a
  return identityIn h.toProcess workspace {
    outDir := a.outDir
    source := a.source
    staticKey := h.staticKey parts
    virtualEnv := h.stableEmptyDirectories a (h.rootNormalizer workspace a.outDir a.source)
    diagnosticWidth := diagnosticWidth a.args }

end Host

/-! ## The fields tell the parts -/

namespace StaticParts

variable {p q : StaticParts}

/-- The fields of one kind are found by what their names begin with. -/
def named (word : String) (field : Text × List UInt8) : Bool := field.1.take word.toList.length == word.toList

theorem filter_map_of_named {α : Type} {word : String} {f : α → Text × List UInt8}
    (h : ∀ a, named word (f a) = true)
    (l : List α) : (l.map f).filter (named word) = l.map f := by
  simp [List.filter_eq_self, h]

theorem filter_map_of_not_named {α : Type} {word : String} {f : α → Text × List UInt8}
    (h : ∀ a, named word (f a) = false) (l : List α) : (l.map f).filter (named word) = [] := by
  simp [List.filter_eq_nil_iff, h]

theorem pair_injective {name : Text → Text} (hname : Function.Injective name) :
    Function.Injective fun entry : Text × Text => (name entry.1, utf8 entry.2) := by
  intro ⟨a, b⟩ ⟨c, d⟩ h
  obtain ⟨hfirst, hsecond⟩ := Prod.mk.inj h
  exact Prod.ext (hname hfirst) (utf8_injective hsecond)

/-- What is hashed whatever the lists are. -/
def header (p : StaticParts) : List (Text × List UInt8) :=
  [("protocol".toList, utf8 (toString PROTOCOL_VERSION).toList), ("compiler".toList, p.compiler),
    ("dep-info-format".toList, utf8 DEP_INFO_FORMAT), ("output-kind".toList, utf8 p.kind.name.toList)]

theorem filter_fields (p : StaticParts) :
    p.fields.filter (named "arg") = p.args.map (fun arg => ("arg".toList, utf8 arg)) ∧
      p.fields.filter (named "env:") = p.environment.map (fun entry => ("env:".toList ++ entry.1, utf8 entry.2)) ∧
      p.fields.filter (named "linker-on-path") =
        p.linkerOnPath.toList.map (fun found => ("linker-on-path".toList, utf8 found)) ∧
      p.fields.filter (named "input:") = p.inputs.map fun input => ("input:".toList ++ input.1, utf8 input.2) := by
  have hparts : ∀ word, p.fields.filter (named word) = p.header.filter (named word) ++
      (p.args.map fun arg => ("arg".toList, utf8 arg)).filter (named word) ++
      [("remap".toList, utf8 REMAP)].filter (named word) ++
      (p.environment.map fun entry => ("env:".toList ++ entry.1, utf8 entry.2)).filter (named word) ++
      (p.linkerOnPath.toList.map fun found => ("linker-on-path".toList, utf8 found)).filter (named word) ++
      (p.inputs.map fun input => ("input:".toList ++ input.1, utf8 input.2)).filter (named word) := by
    intro word
    simp only [← List.filter_append]
    rfl
  refine ⟨?_, ?_, ?_, ?_⟩
  · rw [hparts, filter_map_of_named (fun _ => rfl), filter_map_of_not_named (fun _ => rfl) p.environment,
      filter_map_of_not_named (fun _ => rfl) p.linkerOnPath.toList, filter_map_of_not_named (fun _ => rfl) p.inputs]
    simp [header, named]
  · rw [hparts, filter_map_of_not_named (fun _ => rfl) p.args, filter_map_of_named (fun _ => rfl) p.environment,
      filter_map_of_not_named (fun _ => rfl) p.linkerOnPath.toList, filter_map_of_not_named (fun _ => rfl) p.inputs]
    simp [header, named]
  · rw [hparts, filter_map_of_not_named (fun _ => rfl) p.args, filter_map_of_not_named (fun _ => rfl) p.environment,
      filter_map_of_named (fun _ => rfl) p.linkerOnPath.toList, filter_map_of_not_named (fun _ => rfl) p.inputs]
    simp [header, named]
  · rw [hparts, filter_map_of_not_named (fun _ => rfl) p.args, filter_map_of_not_named (fun _ => rfl) p.environment,
      filter_map_of_not_named (fun _ => rfl) p.linkerOnPath.toList, filter_map_of_named (fun _ => rfl) p.inputs]
    simp [header, named]

theorem fields_injective : Function.Injective fields := by
  intro p q h
  have hfilter := fun word => congrArg (List.filter (named word)) h
  obtain ⟨hargs, henv, hlinker, hinputs⟩ := p.filter_fields
  obtain ⟨hargs', henv', hlinker', hinputs'⟩ := q.filter_fields
  have hheader : p.header = q.header := by
    have hpre : ∀ r : StaticParts, r.fields.take 4 = r.header := fun r => rfl
    rw [← hpre, ← hpre, h]
  simp only [header, List.cons.injEq, Prod.mk.injEq, true_and, and_true] at hheader
  have hkind : p.kind = q.kind := by
    have hname : p.kind.name.toList = q.kind.name.toList := utf8_injective hheader.2
    cases hk : p.kind <;> cases hk' : q.kind <;> rw [hk, hk'] at hname <;> first | rfl | exact absurd hname (by decide)
  have hone (word : String) : Function.Injective fun text : Text => (word.toList, utf8 text) := fun _ _ heq =>
    utf8_injective (Prod.mk.inj heq).2
  have hnamed (word : String) := pair_injective (List.append_right_injective word.toList)
  have hargs : p.args = q.args :=
    List.map_injective_iff.2 (hone "arg") (hargs.symm.trans ((hfilter "arg").trans hargs'))
  have henv : p.environment = q.environment :=
    List.map_injective_iff.2 (hnamed "env:") (henv.symm.trans ((hfilter "env:").trans henv'))
  have hlinker : p.linkerOnPath = q.linkerOnPath := by
    have hlist : p.linkerOnPath.toList = q.linkerOnPath.toList :=
      List.map_injective_iff.2 (hone "linker-on-path") (hlinker.symm.trans ((hfilter "linker-on-path").trans hlinker'))
    calc p.linkerOnPath = p.linkerOnPath.toList.head? := Option.head?_toList.symm
      _ = q.linkerOnPath := by rw [hlist, Option.head?_toList]
  have hinputs : p.inputs = q.inputs :=
    List.map_injective_iff.2 (hnamed "input:") (hinputs.symm.trans ((hfilter "input:").trans hinputs'))
  obtain ⟨compiler, kind, args, environment, linkerOnPath, inputs⟩ := p
  obtain ⟨compiler', kind', args', environment', linkerOnPath', inputs'⟩ := q
  obtain rfl : compiler = compiler' := hheader.1
  obtain rfl : kind = kind' := hkind
  obtain rfl : args = args' := hargs
  obtain rfl : environment = environment' := henv
  obtain rfl : linkerOnPath = linkerOnPath' := hlinker
  obtain rfl : inputs = inputs' := hinputs
  rfl

/-- The lengths of a string in memory are a `usize`. -/
def Small (field : Text × List UInt8) : Prop := (utf8 field.1).length < 2 ^ 64 ∧ field.2.length < 2 ^ 64

instance (field : Text × List UInt8) : Decidable (Small field) := inferInstanceAs (Decidable (_ ∧ _))

def Fits (p : StaticParts) : Prop := ∀ field ∈ p.fields, Small field

instance (p : StaticParts) : Decidable p.Fits := inferInstanceAs (Decidable (∀ _ ∈ _, _))

/-- A field is told by its lengths. -/
theorem delimited_hashField : Delimited fun field : { field // Small field } => hashField field.1 := by
  intro ⟨⟨name, bytes⟩, hname, hbytes⟩ ⟨⟨name', bytes'⟩, hname', hbytes'⟩ r s h
  simp only [hashField, hashKeyField, List.append_assoc] at h
  obtain ⟨hlen, h⟩ := delimited_leU64 hname hname' h
  obtain ⟨hword, h⟩ := List.append_inj h hlen
  obtain ⟨hlen, h⟩ := delimited_leU64 hbytes hbytes' h
  obtain ⟨hword', hrest⟩ := List.append_inj h hlen
  exact ⟨Subtype.ext (Prod.ext (utf8_injective hword) hword'), hrest⟩

theorem hashed_injective (hp : p.Fits) (hq : q.Fits)
    (h : p.fields.flatMap hashField = q.fields.flatMap hashField) : p = q := by
  have hne : ∀ field : { field // Small field }, hashField field.1 ≠ [] := by
    intro field hnil
    simpa [hashField, hashKeyField, leU64] using congrArg List.length hnil
  have hattach (l : List (Text × List UInt8)) (hl : ∀ field ∈ l, Small field) :
      (l.attachWith Small hl).map Subtype.val = l := List.attachWith_map_subtype_val hl
  have hflat (l : List (Text × List UInt8)) (hl : ∀ field ∈ l, Small field) :
      (l.attachWith Small hl).flatMap (fun field => hashField field.1) = l.flatMap hashField := by
    rw [← List.flatMap_map, hattach]
  have hsame := delimited_hashField.flatMap_injective hne ((hflat _ hp).trans (h.trans (hflat _ hq).symm))
  have hfields := congrArg (List.map Subtype.val) hsame
  exact fields_injective ((hattach _ hp).symm.trans (hfields.trans (hattach _ hq)))

end StaticParts

namespace Host

variable {h h' : Host} {a a' : Analysis} {identity identity' : BuildIdentity} {parts parts' : StaticParts}

/-- What the identity of a compile was made of. -/
theorem buildIdentity_ok (hb : h.buildIdentity a = .ok identity) : ∃ parts,
    h.staticParts identity.workspace a = .ok parts ∧ identity.staticKey = h.staticKey parts := by
  obtain ⟨current, -, hb⟩ := bind_eq_ok.1 hb
  obtain ⟨workspace, -, hb⟩ := bind_eq_ok.1 hb
  obtain ⟨parts, hparts, hb⟩ := bind_eq_ok.1 hb
  obtain rfl := pure_eq_ok.1 hb
  exact ⟨parts, hparts, rfl⟩

def keyedHost (workspace : Text) : Host where
  fs := .still (["/w/one/src/lib.rs", "/w/two/src/lib.rs"].map String.toList)
    (["/", "/w", "/w/one", "/w/one/src", "/w/one/.git", "/w/two", "/w/two/src", "/w/two/.git"].map String.toList)
    fun _ => "content".toList
  var := fun name => if name = "HOME".toList then some "/h".toList else none
  currentDir := some workspace
  vars := [("HOME".toList, "/h".toList), ("CARGO_MANIFEST_DIR".toList, workspace)]
  windows := false
  compilerIdentity := fun _ => .ok (utf8 "rustc 1\nhost: x86_64-unknown-linux-gnu\n".toList)
  digest := spelled
  createDirAll := fun _ => true

def keyedAnalysis (workspace : Text) : Analysis where
  kind := .library
  explicitInputs := ["src/lib.rs".toList]
  staticLibraries := []
  nativeSearch := []
  msvc := false
  rustc := osText "rustc".toList
  args := ["--crate-name".toList, "d".toList, "src/lib.rs".toList, "--out-dir".toList,
    workspace ++ "/target/debug/deps".toList, "-C".toList, "incremental=".toList ++ workspace ++ "/inc".toList]
  crateName := "d".toList
  outDir := workspace ++ "/target/debug/deps".toList
  naming := ⟨"", "lib", ".so", false⟩
  stems := []
  expectedNames := ∅
  procMacros := []
  incremental := none
  unit := "d".toList
  procMacroCrate := false
  responseFile := false

def keyedParts : StaticParts where
  compiler := utf8 "rustc 1\nhost: x86_64-unknown-linux-gnu\n".toList
  kind := .library
  args := ["--crate-name", "d", "src/lib.rs", "--out-dir", "$PROFILE/deps"].map String.toList
  environment := [("CARGO_MANIFEST_DIR".toList, "$WORKSPACE".toList)]
  linkerOnPath := none
  inputs := [("$WORKSPACE/src/lib.rs".toList, "content".toList)]

theorem buildIdentity_keyed : ∀ workspace ∈ ["/w/one".toList, "/w/two".toList],
    ∃ identity, (keyedHost workspace).buildIdentity (keyedAnalysis workspace) = .ok identity ∧
      (keyedHost workspace).staticParts identity.workspace (keyedAnalysis workspace) = .ok keyedParts := by
  intro workspace hworkspace
  have hin :
      ((keyedHost workspace).buildIdentity (keyedAnalysis workspace)).toOption.map (·.workspace) = some workspace :=
    (by decide +kernel : ∀ workspace ∈ ["/w/one".toList, "/w/two".toList],
      ((keyedHost workspace).buildIdentity (keyedAnalysis workspace)).toOption.map (·.workspace) = some workspace)
      workspace hworkspace
  have hparts : (keyedHost workspace).staticParts workspace (keyedAnalysis workspace) = .ok keyedParts :=
    (by decide +kernel : ∀ workspace ∈ ["/w/one".toList, "/w/two".toList],
      (keyedHost workspace).staticParts workspace (keyedAnalysis workspace) = .ok keyedParts) workspace hworkspace
  cases hb : (keyedHost workspace).buildIdentity (keyedAnalysis workspace) with
  | error error =>
    rw [hb] at hin
    cases hin
  | ok identity =>
    rw [hb] at hin
    have hin : identity.workspace = workspace := Option.some.inj hin
    exact ⟨identity, rfl, by rw [hin]; exact hparts⟩

end Host

end Bellows.Cli
