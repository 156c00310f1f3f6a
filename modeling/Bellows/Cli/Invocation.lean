/-
`Invocation::analyze`: what rustc's arguments tell of a compile, or why the
compile is not cached.
-/
import Bellows.Cli.Candidate
import Bellows.Lib.Checked

namespace Bellows.Cli

open Text Checked

/-! ## What is asked and what is found -/

/-- An `OsString`: `none` stands for a byte that is not of a character. -/
abbrev OsText := List (Option Char)

/-- `OsStr::to_str` -/
def toStr (text : OsText) : Option Text := text.mapM id

def osText (text : Text) : OsText := text.map some

/-- What the name of a target tells; for the host, what the build of the
program does. -/
structure Platform where
  windows : Bool
  msvc : Bool
  apple : Bool
  wasm : Bool

/-- What the analysis looks at besides the arguments. -/
structure Surroundings where
  files : FileSystem
  /-- `fs::read_to_string` -/
  readToString : Text → Except String Text
  host : Platform

structure Naming where
  exeSuffix : String
  dllPrefix : String
  dllSuffix : String
  msvc : Bool
  deriving DecidableEq, Repr

/-- An analyzed command line; what of it names inputs is the `Invocation` of the
capture. -/
structure Analysis extends Invocation where
  rustc : OsText
  args : List Text
  crateName : Text
  outDir : Text
  naming : Naming
  stems : List Text
  expectedNames : Finset Text
  procMacros : List Text
  incremental : Option Text
  unit : Text
  procMacroCrate : Bool
  responseFile : Bool

/-! ## Looking options up -/

/-- `filter_map` over the arguments: `read` gets each one and those after it. -/
def filterMapArgs {α : Type} (read : Text → List Text → Option α) : List Text → List α
  | [] => []
  | arg :: rest => (read arg rest).toList ++ filterMapArgs read rest

/-- `find_map` over the arguments -/
def findMapArgs {α : Type} (read : Text → List Text → Option α) : List Text → Option α
  | [] => none
  | arg :: rest => (read arg rest).or (findMapArgs read rest)

def optionValueOf (name : String) (arg : Text) (rest : List Text) : Option Text :=
  if arg = name.toList then rest.head? else stripPrefix? (name.toList ++ ['=']) arg

def optionValue (args : List Text) (name : String) : Option Text := findMapArgs (optionValueOf name) args

def multiOptionValues (args : List Text) (name : String) : List Text := filterMapArgs (optionValueOf name) args

def codegenValueOf (arg : Text) (rest : List Text) : Option Text :=
  if arg = "-C".toList then rest.head? else stripPrefix? "-C".toList arg

def codegenValues (args : List Text) : List Text := filterMapArgs codegenValueOf args

/-- The first of the values of the option, not the one in force. -/
def codegenValue (args : List Text) (name : String) : Option Text :=
  findMapArgs (fun arg rest => (codegenValueOf arg rest).bind (stripPrefix? (name.toList ++ ['=']))) args

def isSaveTemps (value : Text) : Bool := value == "save-temps".toList || "save-temps=".toList.isPrefixOf value

/-- The prefixes that `has_unmodeled_codegen_inputs` looks for. -/
def codegenInputs : List Text := ["linker-plugin-lto=".toList, "profile-use=".toList, "llvm-plugins=".toList]

def hasUnmodeledCodegenInputs (args : List Text) : Bool :=
  (codegenValues args).any fun value => codegenInputs.any (·.isPrefixOf value)

def MODELED_UNSTABLE_FLAGS : List Text :=
  ["unstable-options".toList, "force-unstable-if-unmarked".toList, "share-generics".toList, "threads".toList,
    "macro-backtrace".toList]

def unmodeledUnstableFlag (args : List Text) : Option Text :=
  findMapArgs (fun arg rest => do
    let value ← if arg = "-Z".toList then some (rest.head?.getD []) else stripPrefix? "-Z".toList arg
    let name := value.takeWhile (· != '=')
    if name ∈ MODELED_UNSTABLE_FLAGS then none else some name) args

/-! ## The parts of the analysis -/

/-- `to_str` of every argument -/
def utf8Args : List OsText → Except String (List Text)
  | [] => return []
  | arg :: raw =>
    match toStr arg with
    | none => throw "non-UTF-8 rustc argument"
    | some arg => return arg :: (← utf8Args raw)

def isProbe (args : List Text) : Bool :=
  args.any fun arg => arg == "-vV".toList || "--print".toList.isPrefixOf arg || arg == "-".toList

def expandResponseFiles (s : Surroundings) : List Text → Except String (List Text)
  | [] => return []
  | ('@' :: path) :: args =>
    if "shell:".toList.isPrefixOf path then throw "shell-quoted rustc response files are not modeled"
    else
      match s.readToString path with
      | .error e => throw ("read rustc response file " ++ String.ofList path ++ ": " ++ e)
      | .ok text => return lines text ++ (← expandResponseFiles s args)
  | arg :: args => return arg :: (← expandResponseFiles s args)

def isTargetFile (s : Surroundings) (target : Text) : Bool := endsWith target ".json".toList || s.files.isFile target

def contains (text part : Text) : Bool := decide (part <:+: text)

def Platform.ofTriple (triple : Text) : Platform :=
  ⟨contains triple "windows".toList, contains triple "msvc".toList, contains triple "apple".toList,
    "wasm".toList.isPrefixOf triple⟩

def Naming.forTarget (host : Platform) (target : Option Text) : Naming :=
  let platform := target.elim host Platform.ofTriple
  if platform.wasm then ⟨".wasm", "", ".wasm", false⟩
  else if platform.windows then ⟨".exe", "", ".dll", platform.msvc⟩
  else if platform.apple then ⟨"", "lib", ".dylib", false⟩
  else ⟨"", "lib", ".so", false⟩

/-- `--test` builds a harness executable whatever the crate type. -/
def crateTypesOf (args : List Text) : List Text :=
  let declared := multiOptionValues args "--crate-type"
  if "--test".toList ∈ args ∨ declared = [] then ["bin".toList]
  else declared.flatMap fun value => value.splitOnP (· == ',')

def MODELED_CRATE_TYPES : List Text :=
  ["lib".toList, "rlib".toList, "bin".toList, "cdylib".toList, "dylib".toList, "proc-macro".toList]

/-- The flags `-L` and `-l`, with their values. -/
def nativeValues (args : List Text) : List (Char × Text) :=
  (filterMapArgs (fun arg rest => some (['L', 'l'].filterMap fun flag =>
    if arg = ['-', flag] then rest.head?.map (flag, ·)
    else ((stripPrefix? ['-', flag] arg).filter (· != [])).map (flag, ·))) args).flatten

def afterLast (separator : Char) (text : Text) : Text := (text.reverse.takeWhile (· != separator)).reverse

/-- One round of the loop of `native_inputs`. -/
def nativeInput (found : List Text × List StaticLibrary) : Char × Text → Except String (List Text × List StaticLibrary)
  | ('L', value) =>
    match splitOnce ['='] value with
    | some (kind, path) =>
      if kind = "dependency".toList then return found
      else if kind = "native".toList ∨ kind = "framework".toList then return (found.1 ++ [path], found.2)
      else throw ("native linker or external codegen inputs are not modeled: search path -L " ++ String.ofList value ++
        " may supply crates")
    | none => throw ("native linker or external codegen inputs are not modeled: search path -L " ++
        String.ofList value ++ " may supply crates")
  | (_, value) =>
    let (kind, name) := (splitOnce ['='] value).getD ("dylib".toList, value)
    let (kind, modifiers) := (splitOnce [':'] kind).getD (kind, [])
    let modifiers := modifiers.splitOnP (· == ',')
    if kind = "static".toList then
      if "-bundle".toList ∈ modifiers then return found
      else return (found.1, found.2 ++ [⟨name.takeWhile (· != ':'), decide ("+verbatim".toList ∈ modifiers)⟩])
    else if kind = "dylib".toList ∨ kind = "framework".toList ∨ kind = "raw-dylib".toList then return found
    else throw ("native linker or external codegen inputs are not modeled: -l " ++ String.ofList value)

def nativeInputs (args : List Text) : Except String (List Text × List StaticLibrary) :=
  (nativeValues args).foldlM nativeInput ([], [])

def extraFilenameOf (args : List Text) : Except String Text :=
  match codegenValue args "extra-filename" with
  | some extra => if extra = [] ∨ '/' ∈ extra ∨ '\\' ∈ extra then throw "ambiguous extra filename" else return extra
  | none =>
    -- Cargo leaves it out where users or debuggers find the output by its name.
    if (crateTypesOf args).any (· ∈ ["bin".toList, "cdylib".toList, "dylib".toList]) then return []
    else throw "missing -C extra-filename"

def SYSROOT_CRATES : List Text :=
  ["proc_macro".toList, "test".toList, "std".toList, "core".toList, "alloc".toList]

/-- A file name cut at its last dot, as `file_stem` and `extension` cut it. -/
def cutAtDot (name : Text) : Text × Text :=
  let after := afterLast '.' name
  let before := name.take (name.length - (after.length + 1))
  if name = "..".toList ∨ before = [] then (name, []) else (before, after)

def extension (path : Text) : Text := (cutAtDot (fileName path)).2

/-- One round of the loop over `--extern`. -/
def externInput (s : Surroundings) (found : List Text × List Text) (value : Text) :
    Except String (List Text × List Text) :=
  match splitOnce ['='] value with
  | none =>
    if afterLast ':' value ∈ SYSROOT_CRATES then return found
    else throw "extern dependency has no explicit artifact path"
  | some (name, path) =>
    if s.files.isFile path then
      if extension path ∈ ["so".toList, "dylib".toList, "dll".toList] then
        return (found.1 ++ [path], found.2 ++ [afterLast ':' name])
      else return (found.1 ++ [path], found.2)
    else throw "extern dependency artifact is missing"

/-- What `--emit` asks for. -/
def emitOf (args : List Text) : Except String (List Text) :=
  match multiOptionValues args "--emit" with
  | [kinds] =>
    let emit := kinds.splitOnP (· == ',')
    if emit.any (· ∉ ["dep-info".toList, "metadata".toList, "link".toList]) ∨ args.any ("-o".toList.isPrefixOf ·) then
      throw "unsupported emit set or custom output destination; running rustc to produce every requested output"
    else if "dep-info".toList ∉ emit then throw "unsupported emit set"
    else return emit
  | _ => throw "unsupported emit set or custom output destination; running rustc to produce every requested output"

def makesLinked (crateTypes emit : List Text) : Bool :=
  "link".toList ∈ emit && crateTypes.any (· ∈ ["bin".toList, "cdylib".toList, "dylib".toList, "proc-macro".toList])

def expectedNames (naming : Naming) (unit : Text) (crateTypes emit : List Text) : Finset Text :=
  let library := "lib".toList ++ unit
  let has (kinds : List String) : Bool := kinds.any (·.toList ∈ crateTypes)
  {unit ++ ".d".toList} ∪ (if "metadata".toList ∈ emit then {library ++ ".rmeta".toList} else ∅) ∪
    if "link".toList ∈ emit then
      (if has ["lib", "rlib"] then {library ++ ".rlib".toList} else ∅) ∪
        (if has ["bin"] then {unit ++ naming.exeSuffix.toList} else ∅) ∪
        if has ["cdylib", "dylib", "proc-macro"] then {naming.dllPrefix.toList ++ unit ++ naming.dllSuffix.toList} else ∅
    else ∅

/-- The `file_stem` of the compiler's path, where it is UTF-8; its directories
need not be. -/
def driverOf (rustc : OsText) : Text :=
  match ((rustc.splitOnP (· == some '/')).filter fun part => part != [] && part != [some '.']).getLast? with
  | none => []
  | some name =>
    if name = osText "..".toList then []
    else (toStr (name.take (cutAtDot (name.map (·.getD '\uFFFD'))).1.length)).getD []

def isRustc (driver : Text) : Bool := driver == "rustc".toList || "rustc-".toList.isPrefixOf driver

/-! ## The analysis -/

/-- `analyze` from the expanded arguments on. -/
def analyzeArgs (s : Surroundings) (rustc : OsText) (responseFile : Bool) (args : List Text) :
    Except String Analysis := do
  refuseIf (optionValue args "--sysroot").isSome "custom sysroot contents are not modeled"
  let target := optionValue args "--target"
  refuseIf (target.any (isTargetFile s)) "custom target specification contents are not modeled"
  refuseIf (codegenValue args "target-cpu" = some "native".toList)
    "host-native CPU features are not modeled in the cache key"
  refuseIf ((codegenValues args).any isSaveTemps) "compiler temporary outputs are not modeled"
  refuse ((unmodeledUnstableFlag args).map fun flag => "unstable compiler flag -Z " ++ String.ofList flag ++ " is not modeled")
  let crateName ← okOr (optionValue args "--crate-name") "missing --crate-name"
  let crateTypes := crateTypesOf args
  refuse ((crateTypes.find? (· ∉ MODELED_CRATE_TYPES)).map fun kind =>
    "linked crate type " ++ String.ofList kind ++ " is not modeled")
  let incremental := codegenValue args "incremental"
  let (nativeSearch, staticLibraries) ← nativeInputs args
  let outDir ← okOr (optionValue args "--out-dir") "missing --out-dir"
  let extraFilename ← extraFilenameOf args
  let source ← okOr (args.find? fun arg => endsWith arg ".rs".toList && s.files.pathExists arg)
    "missing primary Rust source"
  let (explicitInputs, procMacros) ← (multiOptionValues args "--extern").foldlM (externInput s) ([source], [])
  let emit ← emitOf args
  let naming := Naming.forTarget s.host target
  let unit := crateName ++ extraFilename
  let kind := if makesLinked crateTypes emit then OutputKind.linked else .library
  refuseIf (hasUnmodeledCodegenInputs args) "native linker or external codegen inputs are not modeled"
  let driver := driverOf rustc
  refuseIf (kind = .linked ∧ ¬ isRustc driver) ("linked outputs compiled by " ++ String.ofList driver ++ " are not modeled")
  return {
    kind, explicitInputs, staticLibraries, nativeSearch
    msvc := naming.msvc
    rustc, args, crateName, outDir, naming
    stems := [unit, "lib".toList ++ unit]
    expectedNames := expectedNames naming unit crateTypes emit
    procMacros, incremental, unit
    procMacroCrate := "proc-macro".toList ∈ crateTypes
    responseFile }

def analyze (s : Surroundings) : List OsText → Except String Analysis
  | [] => throw "missing rustc executable"
  | rustc :: raw => do
    let args ← utf8Args raw
    refuseIf (isProbe args) "compiler probe"
    let responseFile := args.any (['@'].isPrefixOf ·)
    let args ← expandResponseFiles s args
    analyzeArgs s rustc responseFile args

end Bellows.Cli
