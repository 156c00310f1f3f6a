/-
What a compile belongs to: the directories its paths are named by
(`root_bases`), its checkout, and the pins that tell this checkout's roots
from another's (`build_identity`).

The static key, and the empty directories a procedural macro is shown instead
of its own (`stable_empty_directories`), are computed elsewhere.
-/
import Bellows.Cli.Capture
import Bellows.Core.CandidateManifest
import Bellows.Core.Localize

namespace Bellows.Cli

open Text Bellows.Core

/-- What the process sees. Paths and values that are not Unicode are not
modelled. -/
structure Process where
  fs : FileSystem
  /-- `env::var` -/
  var : Text → Option Text
  /-- `env::current_dir` -/
  currentDir : Option Text

/-- `canonical_base` -/
def canonicalBase (fs : FileSystem) (path : Text) : Text := (fs.canonicalize path).getD path

/-- How many levels `path` lies below `root`: `strip_prefix`, counted. -/
def depthBelow (path root : Text) : Option Nat :=
  if startsWith path root then some ((components path).length - (components root).length) else none

namespace Process

variable (p : Process)

def userHome : Option Text := p.var "HOME".toList

def rustupHome : Text :=
  ((p.var "RUSTUP_HOME".toList).or (p.userHome.map fun home => join home ".rustup".toList)).getD ".rustup".toList

def cargoHome : Option Text :=
  (p.var "CARGO_HOME".toList).or (p.userHome.map fun home => join home ".cargo".toList)

/-- `checkout_root` -/
def checkoutRoot (dir : Text) : Option Text :=
  let dir := canonicalBase p.fs dir
  if (p.cargoHome.toList ++ [p.rustupHome]).any fun managed => startsWith dir (canonicalBase p.fs managed) then none
  else (gitRoot p.fs dir).or <|
    ((p.var "BELLOWS_WORKSPACE".toList).filter isAbsolute |>.map (canonicalBase p.fs)).filter (startsWith dir)

/-- `compile_checkout` -/
def compileCheckout (workspace : Text) (source : Option Text) : Option Text :=
  (p.checkoutRoot workspace).or <|
    (source.bind fun source => parent (absolutePath source workspace)).bind p.checkoutRoot

/-- `given_spelling` -/
def givenSpelling (workspace root : Text) : Option Text :=
  (depthBelow workspace root).bind fun depth => p.currentDir.bind fun current => (ancestors current)[depth]?

/-- `source_spelling` -/
def sourceSpelling (workspace : Text) (source : Option Text) (root : Text) : Option Text :=
  source.bind fun source =>
    let given := absolutePath source workspace
    (depthBelow (canonicalBase p.fs given) root).bind fun depth => (ancestors given)[depth]?

/-- `infer_target_root` -/
def inferTargetRoot (outDir : Text) : Option Text :=
  ((ancestors outDir).find? fun dir => fileName dir == "target".toList).or <|
    if fileName outDir = "deps".toList then (parent outDir).bind parent else none

/-- `target_root` -/
def targetRoot (workspace outDir : Text) : Option Text :=
  ((p.var "CARGO_TARGET_DIR".toList).map fun path => absolutePath path workspace).or (inferTargetRoot outDir)

/-- `profile_root` -/
def profileRoot (target outDir : Text) : Option Text :=
  ((ancestors outDir).find? fun dir => ["deps".toList, "build".toList, "examples".toList].contains (fileName dir)).bind
    parent |>.filter fun profile => startsWith profile target && components profile != components target

/-- The bases that name the source checkout, if it is not the workspace. -/
def checkoutBases (workspace : Text) (source : Option Text) : List (Text × Text) :=
  match p.compileCheckout workspace source with
  | none => []
  | some checkout =>
    if components checkout == components workspace then []
    else ((p.givenSpelling workspace checkout).or (p.sourceSpelling workspace source checkout)).toList.map
      (CHECKOUT, ·) ++ [(CHECKOUT, checkout)]

/-- Other spellings of the workspace. -/
def workspaceAliases (workspace : Text) : List (Text × Text) :=
  ([p.currentDir, p.var "CARGO_MANIFEST_DIR".toList].filterMap id).filter (fun path =>
    (p.fs.canonicalize path).map components == (p.fs.canonicalize workspace).map components) |>.map (WORKSPACE, ·)

/-- The profile and the target directory, each in its canonical spelling and
in the caller's. -/
def targetBases (workspace outDir : Text) : List (Text × Text) :=
  match p.targetRoot workspace outDir with
  | none => []
  | some target =>
    (profileRoot target outDir).toList.flatMap (fun profile => [(PROFILE, canonicalBase p.fs profile), (PROFILE, profile)]) ++
      [(TARGET, canonicalBase p.fs target), (TARGET, target)]

/-- `root_bases` -/
def rootBases (workspace outDir : Text) (source : Option Text) : List (Text × Text) :=
  (WORKSPACE, workspace) :: p.checkoutBases workspace source ++ p.workspaceAliases workspace ++
    p.targetBases workspace outDir

/-- `normalizer` -/
def normalizer (workspace outDir : Text) (source : Option Text) : PathNormalizer :=
  .new (p.rootBases workspace outDir source ++
    p.cargoHome.toList.map (fun home => (CARGO_HOME, canonicalBase p.fs home)) ++
    [(RUSTUP_HOME, canonicalBase p.fs p.rustupHome)] ++
    p.userHome.toList.map fun home => (HOME, canonicalBase p.fs home))

def rootNormalizer (workspace outDir : Text) (source : Option Text) : PathNormalizer :=
  .new (p.rootBases workspace outDir source)

end Process

/-! ## Identities -/

/-- The roots outputs are searched for, in the order they are. -/
def scannedRoots : List Text := [CHECKOUT, WORKSPACE, TARGET]

/-- The name of a root's pin. -/
def pinName (token : Text) : Text := PIN_PREFIX ++ token

/-- `Identity`: every root with a spelling has a pin, and only one. -/
structure BuildIdentity extends Identity where
  staticKey : Text
  rootNormalizer : PathNormalizer
  pins : List (Text × Text)
  virtualEnv : List (Text × Text)
  diagnosticWidth : Option Text
  names_nodup : (pins.map (·.1)).Nodup
  pinned : ∀ token ∈ scannedRoots, rootNormalizer.spellings token ≠ [] → pinName token ∈ pins.map (·.1)
  named : ∀ pin ∈ pins, ∃ token ∈ scannedRoots, pin.1 = pinName token

namespace BuildIdentity

/-- `pin_value` -/
def pinValue (a : BuildIdentity) (name : Text) : Option Text := (a.pins.find? fun pin => pin.1 = name).map (·.2)

/-- `env_value`, given the process environment. -/
def envValue (a : BuildIdentity) (var : Text → Option Text) (name : Text) : Option Text :=
  (a.virtualEnv.lookup name).or (var name)

/-- `Identity::diagnostic_width` -/
def width (a : BuildIdentity) : Text := a.diagnosticWidth.getD "absent".toList

end BuildIdentity

/-- What `build_identity` is told or has computed of an invocation. -/
structure CompileUnit where
  outDir : Text
  /-- The first explicit input: the crate root. -/
  source : Option Text
  staticKey : Text
  virtualEnv : List (Text × Text)
  diagnosticWidth : Option Text

/-- The pins of `build_identity`. -/
def pinsOf (p : Process) (workspace : Text) (unit : CompileUnit) : List (Text × Text) :=
  (pinName WORKSPACE, workspace) ::
    (p.targetRoot workspace unit.outDir).toList.map (fun target => (pinName TARGET, canonicalBase p.fs target)) ++
    ((p.rootNormalizer workspace unit.outDir unit.source).spellings CHECKOUT).head?.toList.map (pinName CHECKOUT, ·)

theorem names_pinsOf (p : Process) (workspace : Text) (unit : CompileUnit) :
    (pinsOf p workspace unit).map (·.1) = pinName WORKSPACE ::
      ((p.targetRoot workspace unit.outDir).toList.map fun _ => pinName TARGET) ++
      ((p.rootNormalizer workspace unit.outDir unit.source).spellings CHECKOUT).head?.toList.map fun _ => pinName CHECKOUT := by
  simp only [pinsOf, List.map_cons, List.map_append, List.map_map, List.cons_append]
  rfl

theorem nodup_pinsOf (p : Process) (workspace : Text) (unit : CompileUnit) :
    ((pinsOf p workspace unit).map (·.1)).Nodup := by
  rw [names_pinsOf]
  cases p.targetRoot workspace unit.outDir with
  | none =>
    cases ((p.rootNormalizer workspace unit.outDir unit.source).spellings CHECKOUT).head? with
    | none => exact List.nodup_singleton _
    | some checkout => exact (by decide : [pinName WORKSPACE, pinName CHECKOUT].Nodup)
  | some target =>
    cases ((p.rootNormalizer workspace unit.outDir unit.source).spellings CHECKOUT).head? with
    | none => exact (by decide : [pinName WORKSPACE, pinName TARGET].Nodup)
    | some checkout => exact (by decide : [pinName WORKSPACE, pinName TARGET, pinName CHECKOUT].Nodup)

theorem named_pinsOf (p : Process) (workspace : Text) (unit : CompileUnit) :
    ∀ pin ∈ pinsOf p workspace unit, ∃ token ∈ scannedRoots, pin.1 = pinName token := by
  intro pin hpin
  have hname : pin.1 ∈ (pinsOf p workspace unit).map (·.1) := List.mem_map_of_mem hpin
  rw [names_pinsOf, List.cons_append, List.mem_cons, List.mem_append] at hname
  rcases hname with h | h | h
  · exact ⟨WORKSPACE, by decide, h⟩
  · obtain ⟨-, -, heq⟩ := List.mem_map.1 h
    exact ⟨TARGET, by decide, heq.symm⟩
  · obtain ⟨-, -, heq⟩ := List.mem_map.1 h
    exact ⟨CHECKOUT, by decide, heq.symm⟩

/-- Only a target directory gives the target root a base. -/
theorem targetRoot_of_mem_rootBases {p : Process} {workspace outDir : Text} {source : Option Text}
    {base : Text × Text} (h : base ∈ p.rootBases workspace outDir source) (htoken : base.1 = TARGET) :
    ∃ target, p.targetRoot workspace outDir = some target := by
  have hw : WORKSPACE ≠ TARGET := by decide
  have hc : CHECKOUT ≠ TARGET := by decide
  rw [Process.rootBases, List.cons_append, List.cons_append, List.mem_cons, List.mem_append, List.mem_append] at h
  rcases h with h | (h | h) | h
  · rw [h] at htoken
    exact absurd htoken hw
  · unfold Process.checkoutBases at h
    split at h
    · cases h
    · split at h
      · cases h
      · rcases List.mem_append.1 h with h | h
        · obtain ⟨_, -, heq⟩ := List.mem_map.1 h
          rw [← heq] at htoken
          exact absurd htoken hc
        · rw [List.mem_singleton.1 h] at htoken
          exact absurd htoken hc
  · obtain ⟨_, -, heq⟩ := List.mem_map.1 h
    rw [← heq] at htoken
    exact absurd htoken hw
  · unfold Process.targetBases at h
    split at h
    · cases h
    · next target heq => exact ⟨target, heq⟩

/-- Every root that outputs are searched for is pinned. -/
theorem pinned_pinsOf (p : Process) (workspace : Text) (unit : CompileUnit) :
    ∀ token ∈ scannedRoots, (p.rootNormalizer workspace unit.outDir unit.source).spellings token ≠ [] →
      pinName token ∈ (pinsOf p workspace unit).map (·.1) := by
  intro token htoken hspelled
  rw [names_pinsOf, List.cons_append, List.mem_cons, List.mem_append]
  obtain ⟨spelling, hspelling⟩ := List.exists_mem_of_ne_nil _ hspelled
  simp only [scannedRoots, List.mem_cons, List.not_mem_nil, or_false] at htoken
  rcases htoken with rfl | rfl | rfl
  · refine .inr (.inr (List.mem_map.2 ?_))
    cases hhead : ((p.rootNormalizer workspace unit.outDir unit.source).spellings CHECKOUT).head? with
    | none => exact absurd (List.head?_eq_none_iff.1 hhead) hspelled
    | some checkout => exact ⟨checkout, List.mem_singleton_self _, rfl⟩
  · exact .inl rfl
  · obtain ⟨base, hbase, -⟩ := List.mem_map.1 hspelling
    obtain ⟨hbase, htoken⟩ := List.mem_filter.1 hbase
    obtain ⟨-, given, hgiven, heq⟩ := PathNormalizer.mem_bases_new hbase
    have hgivenToken : given.1 = TARGET := by rw [heq] at htoken; exact beq_iff_eq.1 htoken
    obtain ⟨target, htarget⟩ := targetRoot_of_mem_rootBases hgiven hgivenToken
    refine .inr (.inl (List.mem_map.2 ⟨target, ?_, rfl⟩))
    rw [htarget]
    exact List.mem_singleton_self _

/-- The identity of a compile in its working directory. -/
def identityIn (p : Process) (workspace : Text) (unit : CompileUnit) : BuildIdentity where
  workspace := workspace
  normalizer := p.normalizer workspace unit.outDir unit.source
  checkout := p.compileCheckout workspace unit.source
  staticKey := unit.staticKey
  rootNormalizer := p.rootNormalizer workspace unit.outDir unit.source
  pins := pinsOf p workspace unit
  virtualEnv := unit.virtualEnv
  diagnosticWidth := unit.diagnosticWidth
  names_nodup := nodup_pinsOf p workspace unit
  pinned := pinned_pinsOf p workspace unit
  named := named_pinsOf p workspace unit

/-- `build_identity` -/
def buildIdentity (p : Process) (unit : CompileUnit) : Except CaptureError BuildIdentity := do
  let current ← ask "current_dir" [] p.currentDir
  let workspace ← ask "canonicalize" current (p.fs.canonicalize current)
  return identityIn p workspace unit

end Bellows.Cli
