/-
Which files of the output directory are a unit's: `owns`, the outputs of a link
that are found by it (`discover_linked_outputs`), and the outputs of a record
that are restored by it (`restore_with`).

Two units of one directory keep off each other's outputs exactly where neither's
name is the other's, or the other's after `lib`, with a dot or nothing behind.
-/
import Bellows.Cli.UnmodeledOptions
import Bellows.Core.CandidateManifest
import Bellows.Lib.Prog
import Bellows.Lib.Stems

namespace Bellows.Cli

open Text Checked Prog Stems Bellows.Core

def Analysis.owns (a : Analysis) (fileName : Text) : Bool :=
  a.stems.any fun stem => (stripPrefix? stem fileName).any fun rest => rest == [] || ['.'].isPrefixOf rest

/-! ## The outputs of a link -/

/-- What `symlink_metadata` tells of an entry. -/
structure EntryMetadata where
  /-- In nanoseconds; not every file system keeps it. -/
  modified : Option Int
  isFile : Bool

structure DirEntry where
  name : OsText
  metadata : Option EntryMetadata

/-- One round of the loop over the directory. -/
def discoverEntry (a : Analysis) (threshold : Int) (names : Finset Text) (entry : Option DirEntry) :
    Except CaptureError (Finset Text) := do
  let entry ← ask "read_dir" a.outDir entry
  match toStr entry.name with
  | none => return names
  | some name =>
    if !a.owns name then return names
    else
      let metadata ← ask "symlink_metadata" (join a.outDir name) entry.metadata
      if !metadata.modified.any (threshold ≤ ·) then return names
      else if !metadata.isFile then
        throw (.notStored ("rustc produced a non-file output " ++ String.ofList name ++
          " (split debuginfo directories are not modeled)"))
      else return insert name names

/-- `discover_linked_outputs`; `entries` is what `read_dir` answers. Two seconds
are allowed for coarse timestamps. -/
def discoverLinkedOutputs (a : Analysis) (entries : Option (List (Option DirEntry))) (started : Int) :
    Except CaptureError (Finset Text) := do
  let threshold := started - 2000000000
  let entries ← ask "read_dir" a.outDir entries
  let names ← entries.foldlM (discoverEntry a threshold) ∅
  refuse (a.expectedNames.sort.find? (· ∉ names) |>.map fun expected =>
    .failed ("rustc succeeded but expected output " ++ String.ofList expected ++ " is absent"))
  return names

/-! ## The outputs of a record -/

structure OutputFile where
  bytes : List UInt8
  executable : Bool
  deriving DecidableEq, Repr

/-- What a restore changes. -/
structure OutputState where
  /-- By directory and name. -/
  files : Text → Text → Option OutputFile
  /-- What `Digests::remember` was told. -/
  remembered : List (Text × Text)
  stdout : List UInt8
  stderr : List UInt8

/-- How `install_output` ends: the file may be replaced and yet an error be
reported, or a failed replacement be taken for done. -/
structure Install where
  replaced : Bool
  result : Except String Unit

/-- What a restore asks of the machine it runs on. -/
structure RestoreMachine where
  /-- `compiler_action_key` -/
  actionKey : Text → List FileInput → List FileInput → List EnvInput → Text
  fetch : List Text → Except String (List (List UInt8))
  /-- `transform_dep_info` and `localize_env_deps` -/
  localizeDepInfo : List UInt8 → List UInt8
  /-- `transform_compiler_stream` -/
  localizeStream : List UInt8 → List UInt8
  install : Text → Install
  setPermissions : Text → Except String Unit
  /-- Writing to the program's own streams. -/
  print : List UInt8 → Except String Unit

abbrev RestoreStep := Prog OutputState String

def lift {α : Type} : Except String α → RestoreStep α
  | .ok a => pure a
  | .error e => throw e

def putFile (dir name : Text) (file : OutputFile) (s : OutputState) : OutputState :=
  { s with files := fun d n => if d = dir ∧ n = name then some file else s.files d n }

/-- The metadata of an rlib's compile may be missing. -/
def checkSupplied (a : Analysis) (c : ActionCandidate) : Except String Unit :=
  refuse (a.expectedNames.sort.find? (fun expected =>
    decide (expected ∉ c.artifacts.map (·.fileName)) &&
      !(endsWith expected ".rmeta".toList && decide (∃ name ∈ a.expectedNames, endsWith name ".rlib".toList = true))) |>.map
    fun expected => "manifest is missing expected output " ++ String.ofList expected)

def allowed (a : Analysis) (name : Text) : Bool :=
  match a.kind with
  | .library => decide (name ∈ a.expectedNames)
  | .linked => a.owns name

def checkAllowed (a : Analysis) (c : ActionCandidate) : Except String Unit :=
  refuse ((c.artifacts.find? fun artifact => !allowed a artifact.fileName).map fun artifact =>
    "manifest contains unexpected output " ++ String.ofList artifact.fileName)

/-- The blobs of the outputs, of stdout and of stderr. -/
def fetchAll (m : RestoreMachine) (c : ActionCandidate) :
    Except String (List (List UInt8) × List UInt8 × List UInt8) := do
  let digests := c.artifacts.map (·.digest) ++ [c.stdout.digest, c.stderr.digest]
  let blobs ← m.fetch digests
  refuseIf (blobs.length ≠ digests.length)
    ("blob fetch returned " ++ toString blobs.length ++ " of " ++ toString digests.length ++ " blobs")
  match blobs.reverse with
  | stderr :: stdout :: outputs =>
    refuseIf (stdout.length ≠ c.stdout.len ∨ stderr.length ≠ c.stderr.len)
      "compiler stream length does not match manifest"
    return (outputs.reverse, stdout, stderr)
  | _ => throw "stderr requested"

def writeFile (a : Analysis) (name : Text) (file : OutputFile) : RestoreStep Unit := modify (putFile a.outDir name file)

/-- One round of the loop over what was downloaded. -/
def restoreOutput (m : RestoreMachine) (a : Analysis) (artifact : Artifact) (stored : List UInt8) : RestoreStep Unit := do
  let name := artifact.fileName
  let isDepInfo := endsWith name ".d".toList
  let bytes := if isDepInfo then m.localizeDepInfo stored else stored
  let destination := join a.outDir name
  (if (m.install destination).replaced then writeFile a name ⟨bytes, false⟩ else pure ⟨⟩ : RestoreStep Unit)
  lift (m.install destination).result
  (if artifact.executable then lift (m.setPermissions destination) >>= fun _ => writeFile a name ⟨bytes, true⟩
    else pure ⟨⟩ : RestoreStep Unit)
  if isDepInfo then pure ⟨⟩
  else modify fun s => { s with remembered := s.remembered ++ [(destination, artifact.digest)] }

/-- `restore_with` -/
def restoreWith (m : RestoreMachine) (a : Analysis) (c : ActionCandidate) : RestoreStep Unit := do
  lift (validateCandidateManifest m.actionKey c)
  lift (checkSupplied a c)
  lift (checkAllowed a c)
  let (blobs, stdout, stderr) ← lift (fetchAll m c)
  (c.artifacts.zip blobs).forM fun download => restoreOutput m a download.1 download.2
  let stdout := m.localizeStream stdout
  let stderr := m.localizeStream stderr
  lift (m.print stdout)
  modify fun s => { s with stdout := s.stdout ++ stdout }
  lift (m.print stderr)
  modify fun s => { s with stderr := s.stderr ++ stderr }

/-! ## What a compile's outputs are called -/

/-- The crate's name with the extra filename, as the arguments give them. -/
def unitOf (args : List Text) : Text :=
  (optionValue args "--crate-name").getD [] ++ (codegenValue args "extra-filename").getD []

def libraryOf (args : List Text) : Text := "lib".toList ++ unitOf args

def emitsOf (args : List Text) : List Text := (multiOptionValues args "--emit").flatMap (·.splitOnP (· == ','))

def links (args : List Text) (kinds : List String) : Bool :=
  decide ("link".toList ∈ emitsOf args) && kinds.any (·.toList ∈ crateTypesOf args)

/-- What outputs have after the name of the unit. -/
def unitSuffixes (naming : Naming) (args : List Text) : List Text :=
  ".d".toList :: (if links args ["bin"] then [naming.exeSuffix.toList] else []) ++
    if naming.dllPrefix = "" ∧ links args ["cdylib", "dylib", "proc-macro"] = true then [naming.dllSuffix.toList] else []

/-- What outputs have after `lib` and the name of the unit. -/
def librarySuffixes (naming : Naming) (args : List Text) : List Text :=
  (if "metadata".toList ∈ emitsOf args then [".rmeta".toList] else []) ++
    (if links args ["lib", "rlib"] then [".rlib".toList] else []) ++
      if naming.dllPrefix = "lib" ∧ links args ["cdylib", "dylib", "proc-macro"] = true then [naming.dllSuffix.toList] else []

/-- The unit of `b` has no name of the unit of `a`, and none of its outputs the
one that a library of `a` would have. -/
structure Apart (naming : Naming) (a b : List Text) : Prop where
  unit : ¬ OfStem '.' (unitOf a) (unitOf b)
  library : ¬ OfStem '.' (libraryOf a) (unitOf b)
  libraries : librarySuffixes naming b ≠ [] → ¬ OfStem '.' (unitOf a) (libraryOf b)
  outputs : ∀ suffix ∈ unitSuffixes naming b, unitOf b ++ suffix ≠ libraryOf a

instance (naming : Naming) (a b : List Text) : Decidable (Apart naming a b) :=
  decidable_of_iff (¬ OfStem '.' (unitOf a) (unitOf b) ∧ ¬ OfStem '.' (libraryOf a) (unitOf b) ∧
      (librarySuffixes naming b ≠ [] → ¬ OfStem '.' (unitOf a) (libraryOf b)) ∧
      ∀ suffix ∈ unitSuffixes naming b, unitOf b ++ suffix ≠ libraryOf a)
    ⟨fun h => ⟨h.1, h.2.1, h.2.2.1, h.2.2.2⟩, fun h => ⟨h.unit, h.library, h.libraries, h.outputs⟩⟩

/-! ## What is asked of two units -/

/-- Two accepted invocations with the same output directory and target, whose
expected outputs are disjoint. -/
structure Neighbours (s t : Surroundings) (rawA rawB : List OsText) (a b : Analysis) : Prop where
  left : analyze s rawA = .ok a
  right : analyze t rawB = .ok b
  host : s.host = t.host
  outDir : a.outDir = b.outDir
  target : optionValue a.args "--target" = optionValue b.args "--target"
  disjoint : Disjoint a.expectedNames b.expectedNames

/-- What `b` expects is not owned by `a`, not captured and not overwritten. -/
structure KeepsOff (a b : Analysis) : Prop where
  owns : ∀ name ∈ b.expectedNames, a.owns name = false
  captures : ∀ entries started names, discoverLinkedOutputs a entries started = .ok names →
    Disjoint names b.expectedNames
  restores : ∀ m c s, ∀ name ∈ b.expectedNames,
    (outcome (restoreWith m a c) s).2.files b.outDir name = s.files b.outDir name

variable {a b : Analysis} {s t : Surroundings}

theorem owns_iff {unit : Text} (hstems : a.stems = [unit, "lib".toList ++ unit]) {name : Text} :
    a.owns name = true ↔ OfStem '.' unit name ∨ OfStem '.' ("lib".toList ++ unit) name := by
  have hone : ∀ stem : Text,
      ((stripPrefix? stem name).any fun rest => rest == [] || ['.'].isPrefixOf rest) = true ↔ OfStem '.' stem name := by
    intro stem
    rw [Option.any_eq_true]
    constructor
    · intro ⟨rest, hrest, hdot⟩
      obtain rfl := stripPrefix?_eq_some.1 hrest
      rw [Bool.or_eq_true, beq_iff_eq, List.isPrefixOf_iff_prefix] at hdot
      obtain rfl | hdot := hdot
      · exact .inl (List.append_nil stem)
      · exact .inr ((List.prefix_append_right_inj stem).2 hdot)
    · intro h
      obtain rfl | ⟨rest, rfl⟩ := h
      · exact ⟨[], by simpa using stripPrefix?_append name [], rfl⟩
      · exact ⟨'.' :: rest, stripPrefix?_eq_some.2 (by simp), by simp⟩
  rw [Analysis.owns, hstems, List.any_cons, List.any_cons, List.any_nil, Bool.or_false, Bool.or_eq_true, hone, hone]

/-! ## The names of an accepted invocation -/

theorem forTarget_cases (host : Platform) (target : Option Text) :
    Naming.forTarget host target = ⟨".wasm", "", ".wasm", false⟩ ∨
      (∃ msvc, Naming.forTarget host target = ⟨".exe", "", ".dll", msvc⟩) ∨
      Naming.forTarget host target = ⟨"", "lib", ".dylib", false⟩ ∨
      Naming.forTarget host target = ⟨"", "lib", ".so", false⟩ := by
  unfold Naming.forTarget
  dsimp only
  split_ifs <;> simp

theorem short_of_dot {suffix : Text} (h : '.' ∉ suffix) : Short '.' ('.' :: suffix) := .inr ⟨suffix, rfl, h⟩

theorem short_naming (host : Platform) (target : Option Text) :
    Short '.' (Naming.forTarget host target).exeSuffix.toList ∧
      Short '.' (Naming.forTarget host target).dllSuffix.toList := by
  obtain h | ⟨msvc, h⟩ | h | h := forTarget_cases host target
  · rw [h]
    exact ⟨short_of_dot (by decide), short_of_dot (by decide)⟩
  · rw [h]
    have hexe : Short '.' ".exe".toList := short_of_dot (by decide)
    have hdll : Short '.' ".dll".toList := short_of_dot (by decide)
    exact ⟨hexe, hdll⟩
  · rw [h]
    exact ⟨short_nil '.', short_of_dot (by decide)⟩
  · rw [h]
    exact ⟨short_nil '.', short_of_dot (by decide)⟩

theorem dllPrefix_cases (host : Platform) (target : Option Text) :
    (Naming.forTarget host target).dllPrefix = "" ∨ (Naming.forTarget host target).dllPrefix = "lib" := by
  obtain h | ⟨msvc, h⟩ | h | h := forTarget_cases host target <;> simp [h]

/-- What the analysis names. -/
structure Named (naming : Naming) (a : Analysis) : Prop where
  stems : a.stems = [unitOf a.args, libraryOf a.args]
  expected : ∀ name, name ∈ a.expectedNames ↔ (∃ suffix ∈ unitSuffixes naming a.args, name = unitOf a.args ++ suffix) ∨
    ∃ suffix ∈ librarySuffixes naming a.args, name = libraryOf a.args ++ suffix
  short : ∀ suffix ∈ unitSuffixes naming a.args ++ librarySuffixes naming a.args, Short '.' suffix

theorem extraFilename_getD {args : List Text} {extra : Text} (h : extraFilenameOf args = .ok extra) :
    (codegenValue args "extra-filename").getD [] = extra := by
  unfold extraFilenameOf at h
  split at h
  · next given hgiven =>
    split at h
    · cases h
    · rw [hgiven]
      exact pure_eq_ok.1 h
  · next hnone =>
    split at h
    · rw [hnone]
      exact pure_eq_ok.1 h
    · cases h

theorem emitsOf_eq {args : List Text} {emit : List Text} (h : emitOf args = .ok emit) : emitsOf args = emit := by
  unfold emitOf at h
  split at h
  · next kinds hkinds =>
    rw [emitsOf, hkinds, List.flatMap_singleton]
    dsimp only at h
    split at h
    · cases h
    split at h
    · cases h
    · exact pure_eq_ok.1 h
  · cases h

theorem mem_ite_singleton {p : Prop} [Decidable p] {x y : Text} : x ∈ (if p then {y} else ∅ : Finset Text) ↔ p ∧ x = y := by
  split_ifs <;> simp [*]

theorem mem_ite_list {p : Prop} [Decidable p] {x y : Text} : x ∈ (if p then [y] else []) ↔ p ∧ x = y := by
  split_ifs <;> simp [*]

theorem mem_expectedNames (host : Platform) (target : Option Text) (args : List Text) (name : Text) :
    name ∈ expectedNames (Naming.forTarget host target) (unitOf args) (crateTypesOf args) (emitsOf args) ↔
      (∃ suffix ∈ unitSuffixes (Naming.forTarget host target) args, name = unitOf args ++ suffix) ∨
        ∃ suffix ∈ librarySuffixes (Naming.forTarget host target) args, name = libraryOf args ++ suffix := by
  have hprefix := dllPrefix_cases host target
  generalize Naming.forTarget host target = naming at hprefix ⊢
  by_cases hlink : "link".toList ∈ emitsOf args
  · simp only [expectedNames, unitSuffixes, librarySuffixes, links, libraryOf, hlink, if_true, decide_true, Bool.true_and,
      Finset.mem_union, Finset.mem_singleton, List.cons_append, List.mem_append, List.mem_cons, mem_ite_singleton,
      mem_ite_list, or_and_right, exists_or, and_assoc, exists_and_left, exists_eq_left]
    generalize ".d".toList = d, ".rmeta".toList = rmeta, ".rlib".toList = rlib, "metadata".toList = metadata,
      ["lib", "rlib"].any _ = isLibrary, ["bin"].any _ = isBin, ["cdylib", "dylib", "proc-macro"].any _ = isDynamic
    have hempty : "" ≠ "lib" := by decide
    obtain hnone | hlib := hprefix
    · rw [hnone]
      simp only [hempty, String.toList_empty, List.nil_append, true_and, false_and, or_false]
      grind
    · rw [hlib]
      simp only [hempty.symm, List.append_assoc, true_and, false_and, or_false]
      grind
  · simp only [expectedNames, unitSuffixes, librarySuffixes, links, libraryOf, hlink, if_false, decide_false, Bool.false_and,
      Finset.mem_union, Finset.mem_singleton, Finset.notMem_empty, List.cons_append, List.mem_append, List.mem_cons,
      mem_ite_singleton, mem_ite_list, or_and_right, exists_or, and_assoc, exists_and_left, exists_eq_left]
    simp

theorem short_suffixes (host : Platform) (target : Option Text) (args : List Text) :
    ∀ suffix ∈ unitSuffixes (Naming.forTarget host target) args ++ librarySuffixes (Naming.forTarget host target) args,
      Short '.' suffix := by
  obtain ⟨hexe, hdll⟩ := short_naming host target
  have hd : Short '.' ".d".toList := short_of_dot (by decide)
  have hrmeta : Short '.' ".rmeta".toList := short_of_dot (by decide)
  have hrlib : Short '.' ".rlib".toList := short_of_dot (by decide)
  intro suffix hsuffix
  unfold unitSuffixes librarySuffixes at hsuffix
  split_ifs at hsuffix <;> simp at hsuffix <;> grind

theorem named_of_analyze {raw : List OsText} (h : analyze s raw = .ok a) :
    Named (Naming.forTarget s.host (optionValue a.args "--target")) a := by
  cases raw with
  | nil => cases h
  | cons rustc raw =>
    simp only [analyze, analyzeArgs, bind_eq_ok, refuseIf_eq_ok, refuse_eq_ok, okOr_eq_ok, pure_eq_ok] at h
    obtain ⟨given, -, -, -, args, -, -, -, -, -, -, -, -, -, -, -, crate, hcrate, -, -, inputs, -, out, -, extra, hextra,
      source, -, found, -, emit, hemit, -, -, -, -, rfl⟩ := h
    have hunit : unitOf args = crate ++ extra := by
      rw [unitOf, hcrate, extraFilename_getD hextra]
      rfl
    refine ⟨?_, fun name => ?_, short_suffixes _ _ _⟩
    · rw [libraryOf, hunit]
    · rw [← mem_expectedNames, hunit, emitsOf_eq hemit]

/-! ## What a unit owns, captures and restores -/

theorem Named.owns_iff {naming : Naming} (h : Named naming a) {name : Text} :
    a.owns name = true ↔ OfStem '.' (unitOf a.args) name ∨ OfStem '.' (libraryOf a.args) name :=
  Cli.owns_iff h.stems

theorem d_mem_unitSuffixes (naming : Naming) (args : List Text) : ".d".toList ∈ unitSuffixes naming args :=
  List.mem_append_left _ List.mem_cons_self

/-- Every condition is needed for the outputs of `b` not to be owned. -/
theorem apart_of_unowned {naming : Naming} (ha : Named naming a) (hb : Named naming b)
    (h : ∀ name ∈ b.expectedNames, a.owns name = false) : Apart naming a.args b.args := by
  have howned : ∀ name ∈ b.expectedNames, ¬ (OfStem '.' (unitOf a.args) name ∨ OfStem '.' (libraryOf a.args) name) := by
    intro name hname howns
    rw [← ha.owns_iff, h name hname] at howns
    cases howns
  have hunit : ∀ suffix ∈ unitSuffixes naming b.args, unitOf b.args ++ suffix ∈ b.expectedNames :=
    fun suffix hsuffix => (hb.expected _).2 (.inl ⟨suffix, hsuffix, rfl⟩)
  have hd := hunit _ (d_mem_unitSuffixes naming b.args)
  have hshort := hb.short _ (List.mem_append_left _ (d_mem_unitSuffixes naming b.args))
  constructor
  · exact fun hstem => howned _ hd (.inl (hstem.append hshort))
  · exact fun hstem => howned _ hd (.inr (hstem.append hshort))
  · intro hne hstem
    obtain ⟨suffix, hsuffix⟩ := List.exists_mem_of_ne_nil _ hne
    exact howned _ ((hb.expected _).2 (.inr ⟨suffix, hsuffix, rfl⟩))
      (.inl (hstem.append (hb.short _ (List.mem_append_right _ hsuffix))))
  · exact fun suffix hsuffix heq => howned _ (hunit suffix hsuffix) (.inr (.inl heq))

/-- Together with those for the outputs of `a` they are enough. -/
theorem unowned_of_apart {naming : Naming} (ha : Named naming a) (hb : Named naming b)
    (hab : Apart naming a.args b.args) (hba : Apart naming b.args a.args) :
    ∀ name ∈ b.expectedNames, a.owns name = false := by
  intro name hname
  rw [Bool.eq_false_iff, ne_eq, ha.owns_iff]
  obtain ⟨suffix, hsuffix, rfl⟩ | ⟨suffix, hsuffix, rfl⟩ := (hb.expected name).1 hname
  · have hshort := hb.short suffix (List.mem_append_left _ hsuffix)
    rw [ofStem_append_iff hshort, ofStem_append_iff hshort]
    intro h
    obtain (h | h) | (h | h) := h
    · exact hab.unit h
    · exact hba.unit (OfStem.of_append_eq h hshort)
    · exact hab.library h
    · exact hab.outputs suffix hsuffix h
  · have hshort := hb.short suffix (List.mem_append_right _ hsuffix)
    rw [ofStem_append_iff hshort, ofStem_append_iff hshort]
    intro h
    obtain (h | h) | (h | h) := h
    · exact hab.libraries (List.ne_nil_of_mem hsuffix) h
    · exact hba.library (OfStem.of_append_eq h hshort)
    · exact hab.unit ((ofStem_append_left _).1 h)
    · exact hba.unit ((ofStem_append_left _).1 (OfStem.of_append_eq h hshort))

theorem owns_of_discovered {entries : Option (List (Option DirEntry))} {started : Int} {names : Finset Text}
    (h : discoverLinkedOutputs a entries started = .ok names) : ∀ name ∈ names, a.owns name = true := by
  unfold discoverLinkedOutputs at h
  simp only [bind_eq_ok, pure_eq_ok] at h
  obtain ⟨entries, -, found, hfound, -, -, rfl⟩ := h
  refine foldlM_keeps (Q := fun names => ∀ name ∈ names, a.owns name = true) ?_ entries hfound (by simp)
  intro names entry next hnext hnames
  unfold discoverEntry at hnext
  obtain ⟨entry, -, hnext⟩ := bind_eq_ok.1 hnext
  split at hnext
  · exact pure_eq_ok.1 hnext ▸ hnames
  split at hnext
  · exact pure_eq_ok.1 hnext ▸ hnames
  next name _ howns =>
  obtain ⟨metadata, -, hnext⟩ := bind_eq_ok.1 hnext
  split at hnext
  · exact pure_eq_ok.1 hnext ▸ hnames
  split at hnext
  · cases hnext
  · obtain rfl := pure_eq_ok.1 hnext
    intro other hother
    obtain rfl | hother := Finset.mem_insert.1 hother
    · simpa using howns
    · exact hnames other hother

theorem ensures_lift {α : Type} (x : Except String α) (s : OutputState) :
    Ensures (lift x) s fun r t => t = s ∧ r = x := by
  cases x with
  | ok value => exact ⟨rfl, rfl⟩
  | error e => exact ⟨rfl, rfl⟩

theorem keeps_lift {α : Type} {I : OutputState → Prop} (x : Except String α) : Keeps I (lift x) := by
  cases x with
  | ok value => exact keeps_pure value
  | error e => exact keeps_throw e

/-- Only allowed files have changed. -/
def OnlyAllowed (a : Analysis) (s t : OutputState) : Prop :=
  ∀ dir name, allowed a name = false → t.files dir name = s.files dir name

theorem OnlyAllowed.putFile {s t : OutputState} (h : OnlyAllowed a s t) {name : Text} (hname : allowed a name = true)
    (file : OutputFile) : OnlyAllowed a s (putFile a.outDir name file t) := by
  intro dir other hother
  have hne : other ≠ name := by
    intro heq
    rw [heq, hname] at hother
    cases hother
  simpa [Cli.putFile, hne] using h dir other hother

theorem restoreOutput_keeps {m : RestoreMachine} {artifact : Artifact} {s : OutputState}
    (hname : allowed a artifact.fileName = true) (stored : List UInt8) :
    Keeps (OnlyAllowed a s) (restoreOutput m a artifact stored) := by
  have hput : ∀ file, Keeps (OnlyAllowed a s) (writeFile a artifact.fileName file) :=
    fun file => keeps_modify fun t ht => ht.putFile hname file
  unfold restoreOutput
  refine Keeps.bind ?_ fun _ => (keeps_lift _).bind fun _ => Keeps.bind ?_ fun _ => ?_
  · split
    · exact hput _
    · exact keeps_pure _
  · split
    · exact (keeps_lift _).bind fun _ => hput _
    · exact keeps_pure _
  · split
    · exact keeps_pure _
    · exact keeps_modify fun _ ht => ht

theorem restoreWith_onlyAllowed (m : RestoreMachine) (a : Analysis) (c : ActionCandidate) (s : OutputState) :
    Ensures (restoreWith m a c) s fun _ t => OnlyAllowed a s t := by
  have hrefl : OnlyAllowed a s s := fun _ _ _ => rfl
  unfold restoreWith
  refine (keeps_lift _ s hrefl).bind (fun _ _ h => h) fun _ t ht => ?_
  refine (keeps_lift _ t ht).bind (fun _ _ h => h) fun _ u hu => ?_
  refine (ensures_lift _ u).bind (fun _ _ h => h.1 ▸ hu) fun _ v hv => ?_
  have hallowed : ∀ artifact ∈ c.artifacts, allowed a artifact.fileName = true := by
    have hpassed := refuse_eq_ok.1 hv.2.symm
    simpa using hpassed
  rw [hv.1]
  refine Keeps.bind (keeps_lift _) (fun blobs => ?_) u hu
  refine (keeps_forM fun download hdownload => ?_).bind fun _ => ?_
  · exact restoreOutput_keeps (hallowed _ (List.of_mem_zip hdownload).1) _
  · refine (keeps_lift _).bind fun _ => Keeps.bind (keeps_modify fun _ ht => ht) fun _ => ?_
    exact (keeps_lift _).bind fun _ => keeps_modify fun _ ht => ht

theorem KeepsOff.of_unowned (howns : ∀ name ∈ b.expectedNames, a.owns name = false)
    (hdisjoint : Disjoint a.expectedNames b.expectedNames) : KeepsOff a b where
  owns := howns
  captures entries started names h := by
    rw [Finset.disjoint_left]
    intro name hname hexpected
    have := owns_of_discovered h name hname
    rw [howns name hexpected] at this
    cases this
  restores m c s name hname := by
    refine restoreWith_onlyAllowed m a c s b.outDir name ?_
    unfold allowed
    split
    · exact decide_eq_false (Finset.disjoint_right.1 hdisjoint hname)
    · exact howns name hname

/-! ## Two units of one directory -/

theorem Neighbours.named {rawA rawB : List OsText} (h : Neighbours s t rawA rawB a b) :
    Named (Naming.forTarget s.host (optionValue a.args "--target")) a ∧
      Named (Naming.forTarget s.host (optionValue a.args "--target")) b := by
  refine ⟨named_of_analyze h.left, ?_⟩
  rw [h.target, h.host]
  exact named_of_analyze h.right

/-- Neither claims the other's outputs where their names are apart, and only
there. -/
theorem keepsOff_iff {rawA rawB : List OsText} (h : Neighbours s t rawA rawB a b) :
    KeepsOff a b ∧ KeepsOff b a ↔
      Apart (Naming.forTarget s.host (optionValue a.args "--target")) a.args b.args ∧
        Apart (Naming.forTarget s.host (optionValue a.args "--target")) b.args a.args := by
  obtain ⟨ha, hb⟩ := h.named
  constructor
  · intro ⟨hab, hba⟩
    exact ⟨apart_of_unowned ha hb hab.owns, apart_of_unowned hb ha hba.owns⟩
  · intro ⟨hab, hba⟩
    exact ⟨.of_unowned (unowned_of_apart ha hb hab hba) h.disjoint,
      .of_unowned (unowned_of_apart hb ha hba hab) h.disjoint.symm⟩

/-- The arguments of a compile into `out`. -/
def compileOf (crateName : String) (options : List String) : List Text :=
  (["--crate-name", crateName, "a.rs", "--emit=dep-info,link", "--out-dir=out"] ++ options).map String.toList

def invocationOf (crateName : String) (options : List String) : List OsText :=
  osText "rustc".toList :: (compileOf crateName options).map osText

/-- A library and a binary of one name. -/
theorem keepsOff_binary : ∃ a b, Neighbours oneSource oneSource
      (invocationOf "foo" ["--crate-type=lib", "-Cextra-filename=-0f"]) (invocationOf "foo" ["--crate-type=bin"]) a b ∧
    KeepsOff a b ∧ KeepsOff b a := by
  have hleft : (analyze oneSource (invocationOf "foo" ["--crate-type=lib", "-Cextra-filename=-0f"])).map
      (fun a => (a.args, a.outDir, a.expectedNames)) = .ok (compileOf "foo" ["--crate-type=lib", "-Cextra-filename=-0f"],
        "out".toList, {"foo-0f.d".toList, "libfoo-0f.rlib".toList}) := by decide +kernel
  have hright : (analyze oneSource (invocationOf "foo" ["--crate-type=bin"])).map
      (fun a => (a.args, a.outDir, a.expectedNames)) = .ok (compileOf "foo" ["--crate-type=bin"],
        "out".toList, {"foo.d".toList, "foo".toList}) := by decide +kernel
  obtain ⟨a, ha, hfacts⟩ := map_eq_ok.1 hleft
  obtain ⟨b, hb, hfacts'⟩ := map_eq_ok.1 hright
  simp only [Prod.mk.injEq] at hfacts hfacts'
  obtain ⟨hargs, hout, hnames⟩ := hfacts
  obtain ⟨hargs', hout', hnames'⟩ := hfacts'
  have hneighbours : Neighbours oneSource oneSource
      (invocationOf "foo" ["--crate-type=lib", "-Cextra-filename=-0f"]) (invocationOf "foo" ["--crate-type=bin"]) a b := {
    left := ha
    right := hb
    host := rfl
    outDir := hout.trans hout'.symm
    target := by rw [hargs, hargs']; decide +kernel
    disjoint := by rw [hnames, hnames']; decide +kernel }
  refine ⟨a, b, hneighbours, (keepsOff_iff hneighbours).2 ?_⟩
  rw [hargs, hargs']
  decide +kernel

/-- Two binaries: `libfoo.d` is taken for an output of `foo`. -/
theorem not_keepsOff_libfoo : ∃ a b, Neighbours oneSource oneSource (invocationOf "foo" ["--crate-type=bin"])
    (invocationOf "libfoo" ["--crate-type=bin"]) a b ∧ "libfoo.d".toList ∈ b.expectedNames ∧
      a.owns "libfoo.d".toList = true := by
  have hleft : (analyze oneSource (invocationOf "foo" ["--crate-type=bin"])).map
      (fun a => (a.args, a.outDir, a.expectedNames, a.owns "libfoo.d".toList)) = .ok (compileOf "foo" ["--crate-type=bin"],
        "out".toList, {"foo.d".toList, "foo".toList}, true) := by decide +kernel
  have hright : (analyze oneSource (invocationOf "libfoo" ["--crate-type=bin"])).map
      (fun a => (a.args, a.outDir, a.expectedNames)) = .ok (compileOf "libfoo" ["--crate-type=bin"],
        "out".toList, {"libfoo.d".toList, "libfoo".toList}) := by decide +kernel
  obtain ⟨a, ha, hfacts⟩ := map_eq_ok.1 hleft
  obtain ⟨b, hb, hfacts'⟩ := map_eq_ok.1 hright
  simp only [Prod.mk.injEq] at hfacts hfacts'
  obtain ⟨hargs, hout, hnames, howns⟩ := hfacts
  obtain ⟨hargs', hout', hnames'⟩ := hfacts'
  refine ⟨a, b, ⟨ha, hb, rfl, hout.trans hout'.symm, ?_, ?_⟩, ?_, howns⟩
  · rw [hargs, hargs']
    decide +kernel
  · rw [hnames, hnames']
    decide +kernel
  · rw [hnames']
    decide +kernel

end Bellows.Cli
