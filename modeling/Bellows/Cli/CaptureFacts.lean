/-
No input edited while the tool ran is stored, except beside Cargo's output
directories.

Both captures exempt what Cargo produced by the text of its normalized path:
everything that begins with `$TARGET` or `$PROFILE`. A root's path also begins
the path of a sibling whose name goes on (`target-old` beside `target`), and
what lies there is exempt as well (`capture_settled_iff`).
-/
import Bellows.Cli.Capture
import Bellows.Core.PathNormalizerFacts
import Bellows.Lib.Checked

namespace Bellows.Cli

open Text Bellows.Core Checked

/-! ## What a stored input should be -/

/-- Last written, and last changed in any way, before the tool started, by
more than the slack of each stamp. -/
def Settled (fs : FileSystem) (path : Text) (started : Int) : Prop :=
  ∃ metadata changed, fs.metadata path = some metadata ∧ changeTime metadata = some changed ∧
    metadata.modified < started - timestampSlack metadata.modified ∧
    changed < started - timestampSlack changed

theorem changedDuringCompile_eq_false {fs : FileSystem} {path : Text} {started : Int} :
    changedDuringCompile fs path started = false ↔ Settled fs path started := by
  cases hm : fs.metadata path with
  | none => simp [changedDuringCompile, Settled, hm]
  | some metadata =>
    cases hc : changeTime metadata with
    | none => simp [changedDuringCompile, Settled, hm, hc]
    | some changed =>
      simp only [changedDuringCompile, Settled, hm, hc, List.any_cons, List.any_nil, Bool.or_false,
        Bool.or_eq_false_iff, decide_eq_false_iff_not, ge_iff_le, not_le, Option.some.injEq, exists_and_left,
        exists_eq_left']

/-- In the target or the profile directory, component by component. -/
def InCargoDirectory (normalizer : PathNormalizer) (path : Text) : Prop :=
  ∃ root ∈ normalizer.spellings TARGET ++ normalizer.spellings PROFILE, startsWith path root = true

instance (normalizer : PathNormalizer) (path : Text) : Decidable (InCargoDirectory normalizer path) :=
  inferInstanceAs (Decidable (∃ _ ∈ _, _))

/-- Taken for Cargo's own, but not in its directories. -/
def Strays (normalizer : PathNormalizer) (path : Text) : Prop :=
  producedByCargo (normalizer.normalize path) = true ∧ ¬ InCargoDirectory normalizer path

instance (normalizer : PathNormalizer) (path : Text) : Decidable (Strays normalizer path) :=
  inferInstanceAs (Decidable (_ ∧ _))

/-- Taken for Cargo's own, or not changed since. -/
def Passed (w : World) (path : Text) : Prop :=
  producedByCargo (w.identity.normalizer.normalize path) = true ∨ Settled w.fs path w.started

/-- The input stands in one of the lists, under the path that list uses. -/
def Inputs.Has (w : World) (inputs : Inputs) (path : Text) : Prop :=
  (∃ input ∈ inputs.files, input.path = w.identity.normalizer.normalize path) ∨
    ∃ input ∈ inputs.hostFiles, input.path = path

/-! ## Where a stray lies -/

/-- What begins with a root's components lies in it. -/
theorem startsWith_append_slash {root : Text} (hroot : root.head? = some '/') (rest : Text) :
    startsWith (root ++ '/' :: rest) root = true := by
  have habs : isAbsolute root = true := by simp [isAbsolute, hroot]
  have habs' : isAbsolute (root ++ '/' :: rest) = true := by simp [isAbsolute, List.head?_append, hroot]
  simp only [startsWith, components, habs, habs', if_true, List.isPrefixOf_iff_prefix,
    List.splitOnP_append_cons (p := (· == '/')) root rest (beq_self_eq_true '/'), List.filter_append,
    ← List.append_assoc]
  exact List.prefix_append _ _

/-- **A stray lies beside Cargo's directory**: its path begins with the path
of the target or the profile directory, and goes on within the same name. -/
theorem Strays.beside {normalizer : PathNormalizer} (ho : normalizer.Ordinary) {path : Text}
    (habs : path.head? = some '/') (h : Strays normalizer path) :
    ∃ root ∈ normalizer.spellings TARGET ++ normalizer.spellings PROFILE,
      ∃ c rest, path = root ++ c :: rest ∧ c ≠ '/' := by
  obtain ⟨hcargo, hout⟩ := h
  obtain ⟨root, hroot, hp⟩ : ∃ root ∈ normalizer.spellings TARGET ++ normalizer.spellings PROFILE,
      root <+: path := by
    simp only [producedByCargo, List.any_cons, List.any_nil, Bool.or_false, Bool.or_eq_true,
      List.isPrefixOf_iff_prefix] at hcargo
    rcases hcargo with ht | hp
    · obtain ⟨root, hr, hpre⟩ := PathNormalizer.exists_root_of_token_prefix ho (by decide) habs ht
      exact ⟨root, List.mem_append_left _ hr, hpre⟩
    · obtain ⟨root, hr, hpre⟩ := PathNormalizer.exists_root_of_token_prefix ho (by decide) habs hp
      exact ⟨root, List.mem_append_right _ hr, hpre⟩
  obtain ⟨rest, rfl⟩ := hp
  have hslash : root.head? = some '/' := by
    rcases List.mem_append.1 hroot with hm | hm
    all_goals exact (ho _ (PathNormalizer.mem_spellings.1 hm)).2.1
  refine ⟨root, hroot, ?_⟩
  cases rest with
  | nil => exact absurd ⟨root, hroot, by simp [startsWith]⟩ hout
  | cons c rest =>
    refine ⟨c, rest, rfl, ?_⟩
    rintro rfl
    exact hout ⟨root, hroot, startsWith_append_slash hslash rest⟩

/-! ## The lists -/

theorem mem_sortedInputs {inputs : List FileInput} {input : FileInput} (h : input ∈ inputs) :
    ∃ kept ∈ sortedInputs inputs, kept.path = input.path :=
  exists_mem_destutter FileInput.path _ ((List.mem_insertionSort _).2 h)

theorem Inputs.Has.sorted {w : World} {inputs : Inputs} {path : Text} (h : inputs.Has w path) :
    inputs.sorted.Has w path := by
  rcases h with ⟨input, hi, hp⟩ | ⟨input, hi, hp⟩
  · obtain ⟨kept, hk, he⟩ := mem_sortedInputs hi
    exact .inl ⟨kept, hk, he.trans hp⟩
  · obtain ⟨kept, hk, he⟩ := mem_sortedInputs hi
    exact .inr ⟨kept, hk, he.trans hp⟩

theorem Inputs.has_push (w : World) (inputs : Inputs) (path digest : Text) :
    (inputs.push (w.identity.normalizer.normalize path) path digest).Has w path := by
  unfold Inputs.push
  split
  · exact .inl ⟨_, List.mem_append_right _ (List.mem_singleton_self _), rfl⟩
  · exact .inr ⟨_, List.mem_append_right _ (List.mem_singleton_self _), rfl⟩

theorem Inputs.Has.push {w : World} {inputs : Inputs} {path : Text} (h : inputs.Has w path)
    (normalized absolute digest : Text) : (inputs.push normalized absolute digest).Has w path := by
  unfold Inputs.push
  rcases h with ⟨input, hi, hp⟩ | ⟨input, hi, hp⟩
  · split
    · exact .inl ⟨input, List.mem_append_left _ hi, hp⟩
    · exact .inl ⟨input, hi, hp⟩
  · split
    · exact .inr ⟨input, hi, hp⟩
    · exact .inr ⟨input, List.mem_append_left _ hi, hp⟩

/-! ## One input -/

theorem passed_of_not_changed {w : World} {path : Text}
    (h : ¬ (!producedByCargo (w.identity.normalizer.normalize path) &&
      changedDuringCompile w.fs path w.started) = true) : Passed w path := by
  cases hp : producedByCargo (w.identity.normalizer.normalize path) with
  | true => exact .inl hp
  | false =>
    rw [hp, Bool.not_false, Bool.true_and, Bool.not_eq_true, changedDuringCompile_eq_false] at h
    exact .inr h

/-- The closure records its input only if it passed, and forgets none. -/
theorem record_ok {w : World} {inputs after : Inputs} {path : Text} (h : record w inputs path = .ok after) :
    Passed w path ∧ after.Has w path ∧ ∀ other, inputs.Has w other → after.Has w other := by
  simp only [record] at h
  split at h
  · cases h
  split at h
  · cases h
  next hnot =>
    obtain ⟨digest, -, hd⟩ := bind_eq_ok.1 h
    obtain rfl := pure_eq_ok.1 hd
    exact ⟨passed_of_not_changed hnot, Inputs.has_push w inputs path digest,
      fun other ho => ho.push _ _ _⟩

theorem recordFile_ok {w : World} {inputs after : Inputs} {path : Text}
    (h : recordFile w inputs path = .ok after) :
    (∀ a, compilerInput w path = .ok a → Passed w a ∧ after.Has w a) ∧
      ∀ other, inputs.Has w other → after.Has w other := by
  obtain ⟨a, ha, hr⟩ := bind_eq_ok.1 h
  obtain ⟨hp, hh, hk⟩ := record_ok hr
  refine ⟨fun b hb => ?_, hk⟩
  obtain rfl : a = b := Except.ok.inj (ha.symm.trans hb)
  exact ⟨hp, hh⟩

theorem recordLinked_ok {w : World} {sysroot : Text} {inputs after : Inputs} {path : Text}
    (h : recordLinked w sysroot inputs path = .ok after) :
    (startsWith (linkInput w path) sysroot = false → Passed w (linkInput w path) ∧ after.Has w (linkInput w path)) ∧
      ∀ other, inputs.Has w other → after.Has w other := by
  unfold recordLinked at h
  split at h
  · next hs =>
    obtain rfl := pure_eq_ok.1 h
    exact ⟨fun hn => absurd hs (by simp [hn]), fun _ ho => ho⟩
  · obtain ⟨hp, hh, hk⟩ := record_ok h
    exact ⟨fun _ => ⟨hp, hh⟩, hk⟩

namespace BuildScript

/-- A regular file is judged by its own stamps, whatever the package. -/
theorem passed_of_not_changedWhileRunning {w : World} {listing : Option Text} {path : Text}
    (hf : w.fs.isFile path = true) (h : ¬ changedWhileRunning w listing path = true) : Passed w path := by
  have hd : w.fs.isDir path = false := by
    unfold FileSystem.isFile at hf
    unfold FileSystem.isDir
    cases hm : w.fs.metadata path with
    | none => rfl
    | some metadata =>
      rw [hm, Option.any_some, beq_iff_eq] at hf
      rw [Option.any_some, hf]
      rfl
  unfold changedWhileRunning at h
  rw [hd, Bool.and_false, if_neg Bool.false_ne_true] at h
  exact passed_of_not_changed h

/-- What is not a directory is not a root directory. -/
theorem isRootDirectory_eq_false {w : World} {normalized path : Text} {answer : Bool}
    (hf : w.fs.isFile path = true) (h : isRootDirectory w normalized path = .ok answer) : answer = false := by
  unfold isRootDirectory at h
  split at h
  · obtain ⟨metadata, hm, ha⟩ := bind_eq_ok.1 h
    obtain rfl := pure_eq_ok.1 ha
    rw [beq_eq_false_iff_ne]
    intro hk
    cases hs : w.fs.symlinkMetadata path with
    | none => simp [ask, hs] at hm
    | some m =>
      rw [hs] at hm
      obtain rfl : m = metadata := Except.ok.inj hm
      have := w.fs.metadata_eq path m hs (by simp [hk])
      simp [FileSystem.isFile, this, hk] at hf
  · exact (pure_eq_ok.1 h).symm

theorem record_ok {w : World} {listing : Option Text} {inputs after : Inputs} {path : Text}
    (h : record w listing inputs path = .ok after) :
    (w.fs.isFile (resolved w path) = true → Passed w (resolved w path) ∧ after.Has w (resolved w path)) ∧
      ∀ other, inputs.Has w other → after.Has w other := by
  simp only [record] at h
  split at h
  · cases h
  next hchanged =>
    obtain ⟨root, hroot, h⟩ := bind_eq_ok.1 h
    cases root with
    | true =>
      rw [if_pos rfl] at h
      obtain ⟨digest, -, hd⟩ := bind_eq_ok.1 h
      obtain rfl := pure_eq_ok.1 hd
      exact ⟨fun hf => absurd (isRootDirectory_eq_false hf hroot) (by simp), fun _ ho => ho⟩
    | false =>
      rw [if_neg Bool.false_ne_true] at h
      split at h
      · cases h
      obtain ⟨digest, -, hd⟩ := bind_eq_ok.1 h
      obtain rfl := pure_eq_ok.1 hd
      exact ⟨fun hf => ⟨passed_of_not_changedWhileRunning hf hchanged, Inputs.has_push w inputs _ digest⟩,
        fun other ho => ho.push _ _ _⟩

end BuildScript

/-! ## Captures -/

/-- The two tools whose results are captured, with what they told of their
inputs. -/
inductive Tool where
  | compiler (invocation : Invocation) (depText : Text) (link : Option LinkInputs)
  | buildScript (stdout : Text) (packageListing : Option Text)

/-- The inputs a capture records. -/
def Tool.capture (w : World) : Tool → Except CaptureError Inputs
  | .compiler invocation depText link => compilerInputs w invocation depText link
  | .buildScript stdout packageListing => BuildScript.inputs w stdout packageListing

/-- `path` is an input of the tool, as its capture finds and resolves it. -/
def Tool.Reads (w : World) : Tool → Text → Prop
  | .compiler invocation depText link, path =>
    (∃ paths, filePaths w invocation depText = .ok paths ∧ ∃ p ∈ sortedPaths paths, compilerInput w p = .ok path) ∨
      ∃ l ∈ link, ∃ p ∈ l.files, linkInput w p = path ∧ startsWith path l.sysroot = false
  | .buildScript stdout _, path =>
    ∃ paths, BuildScript.inputPaths w stdout = .ok paths ∧ ∃ p ∈ sortedPaths paths, BuildScript.resolved w p = path

/-- What a capture that succeeds says of a regular file it read. -/
def Stored (w : World) (inputs : Inputs) (path : Text) : Prop := Passed w path ∧ inputs.Has w path

theorem recordLink_ok {w : World} {link : Option LinkInputs} {inputs after : Inputs}
    (h : recordLink w inputs link = .ok after) : (∀ other, inputs.Has w other → after.Has w other) ∧
      ∀ l ∈ link, ∀ p ∈ l.files, startsWith (linkInput w p) l.sysroot = false → Stored w after (linkInput w p) := by
  cases link with
  | none =>
    obtain rfl := pure_eq_ok.1 h
    exact ⟨fun _ ho => ho, by simp⟩
  | some l =>
    refine ⟨fun other => foldlM_keeps (fun _ _ _ hs => (recordLinked_ok hs).2 other) l.files h, ?_⟩
    rintro l' ⟨⟩ p hp
    refine forall_of_foldlM
      (P := fun p s => startsWith (linkInput w p) l.sysroot = false → Stored w s (linkInput w p))
      (fun _ _ _ hs => (recordLinked_ok hs).1) (fun _ _ _ b hs hb hn => ?_) l.files h p hp
    exact ⟨(hb hn).1, (recordLinked_ok hs).2 _ (hb hn).2⟩

theorem compilerInputs_ok {w : World} {invocation : Invocation} {depText : Text} {link : Option LinkInputs}
    {inputs : Inputs} (h : compilerInputs w invocation depText link = .ok inputs) {path : Text}
    (hr : (Tool.compiler invocation depText link).Reads w path) : Stored w inputs path := by
  obtain ⟨paths, hpaths, h⟩ := bind_eq_ok.1 h
  obtain ⟨fromFiles, hfiles, h⟩ := bind_eq_ok.1 h
  obtain ⟨unsorted, hlink, h⟩ := bind_eq_ok.1 h
  obtain rfl := pure_eq_ok.1 h
  have ⟨hkeep, hlinked⟩ := recordLink_ok hlink
  rcases hr with ⟨paths', hpaths', p, hp, ha⟩ | ⟨l, hl, p, hp, rfl, hs⟩
  · obtain rfl : paths = paths' := Except.ok.inj (hpaths.symm.trans hpaths')
    have hstored := forall_of_foldlM (P := fun p s => ∀ a, compilerInput w p = .ok a → Stored w s a)
      (fun _ _ _ hs => (recordFile_ok hs).1)
      (fun _ _ _ b hs hb a ha => ⟨(hb a ha).1, (recordFile_ok hs).2 a (hb a ha).2⟩) _ hfiles p hp path ha
    exact ⟨hstored.1, (hkeep path hstored.2).sorted⟩
  · have hstored := hlinked l hl p hp hs
    exact ⟨hstored.1, hstored.2.sorted⟩

theorem scriptInputs_ok {w : World} {stdout : Text} {listing : Option Text} {inputs : Inputs}
    (h : BuildScript.inputs w stdout listing = .ok inputs) {path : Text}
    (hr : (Tool.buildScript stdout listing).Reads w path) (hf : w.fs.isFile path = true) :
    Stored w inputs path := by
  obtain ⟨paths, hpaths, h⟩ := bind_eq_ok.1 h
  obtain ⟨unsorted, hfold, h⟩ := bind_eq_ok.1 h
  obtain rfl := pure_eq_ok.1 h
  obtain ⟨paths', hpaths', p, hp, rfl⟩ := hr
  obtain rfl : paths = paths' := Except.ok.inj (hpaths.symm.trans hpaths')
  have hstored := forall_of_foldlM
    (P := fun p s => w.fs.isFile (BuildScript.resolved w p) = true → Stored w s (BuildScript.resolved w p))
    (fun _ _ _ hs => (BuildScript.record_ok hs).1)
    (fun _ _ _ b hs hb hf => ⟨(hb hf).1, (BuildScript.record_ok hs).2 _ (hb hf).2⟩) _ hfold p hp hf
  exact ⟨hstored.1, hstored.2.sorted⟩

/-- Every regular file the tool read is recorded, and passed the check. -/
theorem Tool.stored_of_capture {w : World} {tool : Tool} {inputs : Inputs} (h : tool.capture w = .ok inputs)
    {path : Text} (hr : tool.Reads w path) (hf : w.fs.isFile path = true) : Stored w inputs path :=
  match tool with
  | .compiler _ _ _ => compilerInputs_ok h hr
  | .buildScript _ _ => scriptInputs_ok h hr hf

/-- Every regular file recorded lies in Cargo's directories or was last changed
before the tool started. -/
def Inputs.AllSettled (w : World) (tool : Tool) (inputs : Inputs) : Prop :=
  ∀ path, tool.Reads w path → w.fs.isFile path = true → inputs.Has w path →
    InCargoDirectory w.identity.normalizer path ∨ Settled w.fs path w.started

/-- **Stored inputs are settled, but for the strays.** What a capture that
succeeds records is settled exactly when no file the tool read strays from
Cargo's directories and changed since the tool started. -/
theorem capture_allSettled_iff {w : World} {tool : Tool} {inputs : Inputs} (h : tool.capture w = .ok inputs) :
    inputs.AllSettled w tool ↔ ∀ path, tool.Reads w path → w.fs.isFile path = true →
      Strays w.identity.normalizer path → changedDuringCompile w.fs path w.started = false := by
  refine ⟨fun hall path hr hf hs => ?_, fun hall path hr hf _ => ?_⟩
  · rcases hall path hr hf (Tool.stored_of_capture h hr hf).2 with hin | hset
    · exact absurd hin hs.2
    · exact changedDuringCompile_eq_false.2 hset
  · rcases (Tool.stored_of_capture h hr hf).1 with hcargo | hset
    · by_cases hin : InCargoDirectory w.identity.normalizer path
      · exact .inl hin
      · exact .inr (changedDuringCompile_eq_false.1 (hall path hr hf ⟨hcargo, hin⟩))
    · exact .inr hset

/-! ## A generated file beside the target directory -/

/-- `/w/target-old/gen.rs` was written while the build script of `/w` ran. -/
def editedMetadata (path : Text) : Option Metadata :=
  if path = "/w/target-old/gen.rs".toList then some ⟨.file, 1700000009500000000, 1700000009, 500000000⟩
  else if path ∈ ["/w/target-old".toList, "/w".toList, "/".toList] then
    some ⟨.directory, 1600000000500000000, 1600000000, 500000000⟩
  else none

def editedWorld : World where
  fs := {
    metadata := editedMetadata
    symlinkMetadata := editedMetadata
    metadata_eq := fun _ _ h _ => h
    canonicalize := fun path => (editedMetadata path).map fun _ => path
    readDir := fun _ => none
    digest := fun path => (editedMetadata path).map fun _ => "d".toList }
  identity := {
    workspace := "/w".toList
    normalizer := .new [(WORKSPACE, "/w".toList), (TARGET, "/w/target".toList),
      (PROFILE, "/w/target/debug".toList), (HOME, "/home/u".toList)]
    checkout := none }
  started := 1700000000500000000
  digestBytes := id
  fuel := 2

def editedTool : Tool := .buildScript "cargo:rerun-if-changed=target-old/gen.rs\n".toList none

def editedInputs : Inputs := ⟨[], [⟨"/w/target-old/gen.rs".toList, "d".toList⟩], []⟩

/-- The generated file is stored, though it was written while the script ran
and lies outside the target directory. -/
theorem editedTool_not_allSettled :
    ¬ ∀ inputs, editedTool.capture editedWorld = .ok inputs → inputs.AllSettled editedWorld editedTool := by
  intro h
  have hreads : editedTool.Reads editedWorld "/w/target-old/gen.rs".toList :=
    ⟨["/w/target-old/gen.rs".toList], rfl, "/w/target-old/gen.rs".toList, by decide, by decide⟩
  have hhas : editedInputs.Has editedWorld "/w/target-old/gen.rs".toList :=
    .inr ⟨_, List.mem_singleton_self _, rfl⟩
  rcases h editedInputs rfl _ hreads (by decide) hhas with hin | hset
  · exact absurd hin (by decide)
  · exact absurd (changedDuringCompile_eq_false.2 hset) (by decide)

theorem capture_allSettled_iff_edited :
    editedInputs.AllSettled editedWorld editedTool ↔
      ∀ path, editedTool.Reads editedWorld path → editedWorld.fs.isFile path = true →
        Strays editedWorld.identity.normalizer path →
          changedDuringCompile editedWorld.fs path editedWorld.started = false :=
  capture_allSettled_iff rfl

end Bellows.Cli
