/-
What a capture that succeeds says of its candidate, and what a candidate's
acceptance says of the checkout that validates it.

The environment inputs are sorted by name, the first of each name kept: a
variable that the dep-info names comes before the pins, and these before the
terminal's width.
-/
import Mathlib.Data.Finset.Sort
import Bellows.Cli.Candidate
import Bellows.Lib.Checked

namespace Bellows.Cli

open Text Bellows.Core Checked KeyedSort

/-! ## The outputs -/

def isDepInfo (name : Text) : Bool := endsWith name ".d".toList

/-- The bytes of an output that is there. -/
def Compile.output (compile : Compile) (m : Machine) (name : Text) : Option (List UInt8) :=
  if m.fs.isFile (join compile.outDir name) then compile.read (join compile.outDir name) else none

/-- The dep-info after one more output: of several, the last counts. -/
def readDepInfo (m : Machine) (compile : Compile) (text : Option Text) (name : Text) : Option Text :=
  if isDepInfo name then (compile.output m name).bind fromUtf8 else text

def depInfo (m : Machine) (compile : Compile) : Option Text := compile.names.foldl (readDepInfo m compile) none

/-- The program reads an environment variable of that name. -/
def ReadsVar (m : Machine) (compile : Compile) (name : Text) : Prop :=
  ∃ depText, depInfo m compile = some depText ∧ name ∈ envDeps depText

/-- A root is found in an output. -/
def Found (m : Machine) (compile : Compile) (scanners : Scanners) (name token : Text) : Prop :=
  isDepInfo name = false ∧ ∃ bytes, compile.output m name = some bytes ∧
    ∃ scanner, (token, scanner) ∈ scanners ∧ leaksIn compile name scanner bytes = true

theorem mem_addLeaks {compile : Compile} {name : Text} {bytes : List UInt8} {scanners : Scanners}
    {leaked : List Text} {token : Text} : token ∈ addLeaks compile name bytes scanners leaked ↔
      token ∈ leaked ∨ ∃ scanner, (token, scanner) ∈ scanners ∧ leaksIn compile name scanner bytes = true := by
  unfold addLeaks
  induction scanners generalizing leaked with
  | nil => simp
  | cons entry scanners ih =>
    rw [List.foldl_cons, ih]
    obtain ⟨root, scanner⟩ := entry
    simp only [List.mem_cons, Prod.mk.injEq]
    by_cases hleaks : leaksIn compile name scanner bytes = true
    · by_cases hin : root ∈ leaked
      · simp only [List.contains_iff_mem.2 hin, Bool.not_true, Bool.false_and, Bool.false_eq_true, if_false]
        refine or_congr_right' fun hnot => ⟨fun ⟨s, hs, h⟩ => ⟨s, .inr hs, h⟩, ?_⟩
        rintro ⟨s, ⟨rfl, rfl⟩ | hs, h⟩
        · exact absurd hin hnot
        · exact ⟨s, hs, h⟩
      · have hcontains : leaked.contains root = false := by simpa using hin
        simp only [hcontains, hleaks, Bool.not_false, Bool.and_true, if_true, List.mem_append, List.mem_singleton,
          or_assoc]
        refine or_congr_right ⟨?_, ?_⟩
        · rintro (rfl | ⟨s, hs, h⟩)
          · exact ⟨scanner, .inl ⟨rfl, rfl⟩, hleaks⟩
          · exact ⟨s, .inr hs, h⟩
        · rintro ⟨s, ⟨rfl, rfl⟩ | hs, h⟩
          · exact .inl rfl
          · exact .inr ⟨s, hs, h⟩
    · simp only [hleaks, Bool.and_false, Bool.false_eq_true, if_false]
      refine or_congr_right ⟨fun ⟨s, hs, h⟩ => ⟨s, .inr hs, h⟩, ?_⟩
      rintro ⟨s, ⟨rfl, rfl⟩ | hs, h⟩
      · exact absurd h hleaks
      · exact ⟨s, hs, h⟩

/-- Metadata is no dep-info. -/
theorem isDepInfo_of_rmeta {name : Text} (h : endsWith name ".rmeta".toList = true) : isDepInfo name = false := by
  rw [Bool.eq_false_iff]
  intro hd
  have hsuffix : ".d".toList <:+ ".rmeta".toList :=
    List.suffix_of_suffix_length_le (List.isSuffixOf_iff_suffix.1 hd) (List.isSuffixOf_iff_suffix.1 h) (by decide)
  exact absurd hsuffix (by decide)

theorem storeOutput_ok {m : Machine} {compile : Compile} {scanners : Scanners} {s t : Captured} {name : Text}
    (hfile : m.fs.isFile (join compile.outDir name) = true)
    (h : storeOutput compile scanners s name (join compile.outDir name) = .ok t) :
    t.depText = readDepInfo m compile s.depText name ∧
      ∀ token, token ∈ t.leaked ↔ token ∈ s.leaked ∨ Found m compile scanners name token := by
  have houtput : compile.output m name = compile.read (join compile.outDir name) := if_pos hfile
  obtain ⟨raw, hraw, h⟩ := bind_eq_ok.1 h
  have hread : compile.read (join compile.outDir name) = some raw := by
    cases hr : compile.read (join compile.outDir name) with
    | none => rw [hr] at hraw; cases hraw
    | some bytes => rw [hr] at hraw; exact congrArg some (Except.ok.inj hraw)
  unfold readDepInfo Found
  rw [houtput, hread]
  by_cases hd : endsWith name ".d".toList = true
  · rw [if_pos hd] at h
    rw [show isDepInfo name = true from hd, if_pos rfl, Option.bind_some]
    cases htext : fromUtf8 raw with
    | none => rw [htext] at h; cases h
    | some text =>
      rw [htext] at h
      obtain ⟨executable, -, h⟩ := bind_eq_ok.1 h
      obtain rfl := pure_eq_ok.1 h
      exact ⟨rfl, fun token => ⟨.inl, fun hor => hor.elim id fun hfound => absurd hfound.1 (by simp)⟩⟩
  · rw [if_neg hd] at h
    rw [show isDepInfo name = false from Bool.eq_false_iff.2 hd, if_neg Bool.false_ne_true]
    obtain ⟨-, -, h⟩ := bind_eq_ok.1 h
    obtain ⟨executable, -, h⟩ := bind_eq_ok.1 h
    obtain rfl := pure_eq_ok.1 h
    refine ⟨rfl, fun token => mem_addLeaks.trans (or_congr_right ⟨fun hex => ⟨rfl, raw, rfl, hex⟩, ?_⟩)⟩
    rintro ⟨-, bytes, heq, hex⟩
    rw [Option.some.inj heq]
    exact hex

theorem captureOutput_ok {m : Machine} {compile : Compile} {scanners : Scanners} {s t : Captured} {name : Text}
    (h : captureOutput m compile scanners s name = .ok t) :
    t.depText = readDepInfo m compile s.depText name ∧
      ∀ token, token ∈ t.leaked ↔ token ∈ s.leaked ∨ Found m compile scanners name token := by
  simp only [captureOutput] at h
  split at h
  · next hfile => exact storeOutput_ok hfile h
  · next hfile =>
    split at h
    · next hskip =>
      obtain rfl := pure_eq_ok.1 h
      have houtput : compile.output m name = none := if_neg hfile
      refine ⟨?_, fun token => ⟨.inl, fun hor => hor.elim id ?_⟩⟩
      · rw [readDepInfo, isDepInfo_of_rmeta (Bool.and_eq_true_iff.1 hskip).1, if_neg Bool.false_ne_true]
      · rintro ⟨-, bytes, hbytes, -⟩
        rw [houtput] at hbytes
        cases hbytes
    · cases h

/-- What the loop over the outputs gathers. -/
theorem captureOutputs_fold {m : Machine} {compile : Compile} {scanners : Scanners} {names : List Text}
    {s t : Captured} (h : names.foldlM (captureOutput m compile scanners) s = .ok t) :
    t.depText = names.foldl (readDepInfo m compile) s.depText ∧
      ∀ token, token ∈ t.leaked ↔ token ∈ s.leaked ∨ ∃ name ∈ names, Found m compile scanners name token := by
  induction names generalizing s with
  | nil =>
    obtain rfl := pure_eq_ok.1 h
    exact ⟨rfl, fun token => by simp⟩
  | cons name names ih =>
    rw [List.foldlM_cons] at h
    obtain ⟨u, hu, h⟩ := bind_eq_ok.1 h
    obtain ⟨htext, hleaked⟩ := captureOutput_ok hu
    obtain ⟨htext', hleaked'⟩ := ih h
    refine ⟨by rw [htext', htext, List.foldl_cons], fun token => ?_⟩
    rw [hleaked' token, hleaked token, List.exists_mem_cons_iff, or_assoc]

/-! ## The candidate -/

/-- A root leaks into some output. -/
def Leaked (m : Machine) (a : BuildIdentity) (compile : Compile) (token : Text) : Prop :=
  ∃ name ∈ compile.names, Found m compile (scannersOf a) name token

/-- What a capture that succeeds went through. -/
theorem captureOutputs_ok {m : Machine} {a : BuildIdentity} {compile : Compile} {candidate : ActionCandidate}
    (h : captureOutputs m a compile = .ok candidate) :
    ∃ captured depText inputs, depInfo m compile = some depText ∧
      (∀ token, token ∈ captured.leaked ↔ Leaked m a compile token) ∧
      compilerInputs (m.world a.toIdentity compile.started) compile.invocation depText compile.link = .ok inputs ∧
      candidate = candidateOf m a compile captured inputs depText ∧
      validateCandidateManifest m.actionKey candidate = .ok () := by
  obtain ⟨captured, hfold, h⟩ := bind_eq_ok.1 h
  obtain ⟨htext, hleaked⟩ := captureOutputs_fold hfold
  cases hd : captured.depText with
  | none => rw [hd] at h; cases h
  | some depText =>
    rw [hd] at h
    obtain ⟨inputs, hinputs, h⟩ := bind_eq_ok.1 h
    unfold checkedCandidate at h
    split at h
    · next hvalid =>
      obtain rfl := pure_eq_ok.1 h
      exact ⟨captured, depText, inputs, htext.symm.trans hd, fun token => (hleaked token).trans (by simp [Leaked]), hinputs, rfl, hvalid⟩
    · split at h <;> cases h

/-! ## Environment inputs -/

theorem BuildIdentity.pinValue_eq_some {a : BuildIdentity} {name value : Text} :
    a.pinValue name = some value ↔ (name, value) ∈ a.pins := by
  unfold BuildIdentity.pinValue
  constructor
  · intro h
    obtain ⟨pin, hpin, rfl⟩ := Option.map_eq_some_iff.1 h
    have hname : pin.1 = name := by simpa using List.find?_some hpin
    exact hname ▸ List.mem_of_find?_eq_some hpin
  · intro h
    obtain ⟨pin, hpin⟩ : ∃ pin, a.pins.find? (fun pin => pin.1 = name) = some pin :=
      Option.isSome_iff_exists.1 (List.find?_isSome.2 ⟨_, h, by simp⟩)
    have hname : pin.1 = name := by simpa using List.find?_some hpin
    have heq : pin = (name, value) :=
      List.inj_on_of_nodup_map a.names_nodup (List.mem_of_find?_eq_some hpin) h hname
    rw [hpin, heq, Option.map_some]

theorem envInput_name (m : Machine) (a : BuildIdentity) (leaked : List Text) (name : Text) :
    (envInput m a leaked name).name = name := by
  unfold envInput
  split
  · rfl
  · dsimp only
    split <;> rfl

/-- The pin of a root that leaked is recorded. -/
theorem mem_leakedPins {a : BuildIdentity} {leaked : List Text} {token value : Text} (hleaked : token ∈ leaked)
    (hpin : (pinName token, value) ∈ a.pins) : (pinName token, value) ∈ leakedPins a leaked := by
  refine List.mem_filter.2 ⟨hpin, List.any_eq_true.2 ⟨token, hleaked, ?_⟩⟩
  exact List.isSuffixOf_iff_suffix.2 (List.suffix_append _ _)

/-- What a candidate records under a name. -/
def recordedInput (m : Machine) (a : BuildIdentity) (compile : Compile) (leaked names : List Text) (name : Text) :
    Option EnvInput :=
  if name ∈ names then some (envInput m a leaked name)
  else ((leakedPins a leaked).find? fun pin => pin.1 = name).map (fun pin => .capture m.digestBytes pin.1 (some pin.2)) |>.or <|
    if name = DIAGNOSTIC_WIDTH_INPUT then
      some (.capture m.digestBytes DIAGNOSTIC_WIDTH_INPUT (some (recordedWidth a compile)))
    else none

theorem recordedInput_of_mem {m : Machine} {a : BuildIdentity} {compile : Compile} {leaked names : List Text}
    {name : Text} (h : name ∈ names) :
    recordedInput m a compile leaked names name = some (envInput m a leaked name) := if_pos h

theorem recordedInput_of_pin {m : Machine} {a : BuildIdentity} {compile : Compile} {leaked names : List Text}
    {name value : Text} (h : name ∉ names) (hpin : (name, value) ∈ leakedPins a leaked) :
    recordedInput m a compile leaked names name = some (.capture m.digestBytes name (some value)) := by
  obtain ⟨pin, hfind⟩ : ∃ pin, (leakedPins a leaked).find? (fun pin => pin.1 = name) = some pin :=
    Option.isSome_iff_exists.1 (List.find?_isSome.2 ⟨_, hpin, by simp⟩)
  have hname : pin.1 = name := by simpa using List.find?_some hfind
  have hmem : pin ∈ leakedPins a leaked := List.mem_of_find?_eq_some hfind
  have heq : pin = (name, value) :=
    List.inj_on_of_nodup_map a.names_nodup (List.mem_filter.1 hmem).1 (List.mem_filter.1 hpin).1 hname
  rw [recordedInput, if_neg h, hfind, heq, Option.map_some, Option.some_or]

theorem find?_map_envInput (m : Machine) (a : BuildIdentity) (leaked : List Text) (name : Text) (names : List Text) :
    (names.map (envInput m a leaked)).find? (fun input => input.name = name) =
      if name ∈ names then some (envInput m a leaked name) else none := by
  induction names with
  | nil => rfl
  | cons first names ih =>
    rw [List.map_cons, List.find?_cons, ih, envInput_name]
    by_cases hfirst : first = name
    · subst hfirst
      simp only [decide_true, List.mem_cons_self, if_true]
    · simp only [hfirst, decide_false, List.mem_cons, Ne.symm hfirst, false_or]

theorem find?_envInputs (m : Machine) (a : BuildIdentity) (compile : Compile) (leaked names : List Text) (name : Text) :
    (envInputs m a compile leaked names).find? (fun input => input.name = name) =
      recordedInput m a compile leaked names name := by
  unfold envInputs recordedInput
  rw [List.append_assoc, List.find?_append, List.find?_append, find?_map_envInput, List.find?_map]
  split
  · rfl
  · rw [Option.none_or, List.find?_singleton]
    have hwidth : (DIAGNOSTIC_WIDTH_INPUT = name) = (name = DIAGNOSTIC_WIDTH_INPUT) := propext eq_comm
    simp only [EnvInput.capture_name, Function.comp_def, hwidth, decide_eq_true_eq]
    rfl

/-- The candidate's environment: one entry a name. -/
theorem mem_env {m : Machine} {a : BuildIdentity} {compile : Compile} {leaked names : List Text} {input : EnvInput} :
    input ∈ sortedBy EnvInput.name (envInputs m a compile leaked names) ↔
      recordedInput m a compile leaked names input.name = some input := by
  rw [mem_sortedBy, find?_envInputs]

/-! ## Acceptance -/

/-- A pin is accepted by its value. -/
theorem checkEnv_pin {m : Machine} {b : BuildIdentity} {input : EnvInput} (h : PIN_PREFIX <+: input.name) :
    checkEnv m b input = .ok () ↔
      ∃ value, b.pinValue input.name = some value ∧ input.valueDigest = some (m.digestBytes value) := by
  rw [checkEnv, if_pos (List.isPrefixOf_iff_prefix.2 h)]
  cases b.pinValue input.name with
  | none => exact iff_of_false (by rintro ⟨⟩) (by rintro ⟨_, ⟨⟩, -⟩)
  | some value =>
    dsimp only
    split
    · next hne => exact iff_of_false (by rintro ⟨⟩) (by rintro ⟨_, ⟨⟩, heq⟩; exact hne heq.symm)
    · next heq => exact iff_of_true rfl ⟨value, rfl, (not_ne_iff.1 heq).symm⟩

/-- Any other variable is accepted if it would be recorded alike. -/
theorem checkEnv_named {m : Machine} {b : BuildIdentity} {input : EnvInput} (h : ¬ PIN_PREFIX <+: input.name) :
    checkEnv m b input = .ok () ↔ (currentInput m b input).valueDigest = input.valueDigest := by
  rw [checkEnv, if_neg fun hpre => h (List.isPrefixOf_iff_prefix.1 hpre)]
  split
  · next hne => exact iff_of_false (by rintro ⟨⟩) hne
  · next heq => exact iff_of_true rfl (not_ne_iff.1 heq)

theorem checkFile_eq_ok {m : Machine} {b : BuildIdentity} {input : FileInput} :
    checkFile m b input = .ok () ↔
      (outsideCheckoutRoots input.path = true → ¬ foreignCheckout m.fs (localizedPath b input.path) b.checkout = true) ∧
        checkDigest m b input (localizedPath b input.path) = .ok () := by
  unfold checkFile
  split
  · next h =>
    rw [Bool.and_eq_true] at h
    exact iff_of_false (by rintro ⟨⟩) fun hboth => hboth.1 h.1 h.2
  · next h =>
    rw [Bool.and_eq_true, not_and] at h
    exact ⟨fun hok => ⟨h, hok⟩, And.right⟩

theorem checkHostFile_eq_ok {m : Machine} {b : BuildIdentity} {input : FileInput} :
    checkHostFile m b input = .ok () ↔
      ¬ foreignCheckout m.fs input.path b.checkout = true ∧ checkDigest m b input input.path = .ok () := by
  unfold checkHostFile
  split
  · next h => exact iff_of_false (by rintro ⟨⟩) fun hboth => hboth.1 h
  · next h => exact ⟨fun hok => ⟨h, hok⟩, And.right⟩

/-- A candidate is accepted when its parts are. -/
theorem validateCandidate_eq_ok {m : Machine} {b : BuildIdentity} {candidate : ActionCandidate} :
    validateCandidate m b candidate = .ok () ↔
      validateCandidateManifest m.actionKey candidate = .ok () ∧ widthMatches m b candidate = true ∧
        (∀ input ∈ candidate.env, input.name ≠ DIAGNOSTIC_WIDTH_INPUT → checkEnv m b input = .ok ()) ∧
        (∀ input ∈ candidate.files, checkFile m b input = .ok ()) ∧
        ∀ input ∈ candidate.hostFiles, checkHostFile m b input = .ok () := by
  unfold validateCandidate
  constructor
  · intro h
    obtain ⟨_, hmanifest, h⟩ := bind_eq_ok.1 h
    split at h
    · cases h
    next hwidth =>
      obtain ⟨_, hnamed, h⟩ := bind_eq_ok.1 h
      obtain ⟨_, hpins, h⟩ := bind_eq_ok.1 h
      obtain ⟨_, hfiles, hhost⟩ := bind_eq_ok.1 h
      refine ⟨hmanifest, by simpa using hwidth, fun input hin hne => ?_, forM_eq_ok.1 hfiles, forM_eq_ok.1 hhost⟩
      have hother : input ∈ candidate.env.filter fun input => input.name ≠ DIAGNOSTIC_WIDTH_INPUT :=
        List.mem_filter.2 ⟨hin, decide_eq_true hne⟩
      cases hpin : PIN_PREFIX.isPrefixOf input.name with
      | true => exact forM_eq_ok.1 hpins input (List.mem_filter.2 ⟨hother, hpin⟩)
      | false => exact forM_eq_ok.1 hnamed input (List.mem_filter.2 ⟨hother, by simp [hpin]⟩)
  · rintro ⟨hmanifest, hwidth, henv, hfiles, hhost⟩
    refine bind_eq_ok.2 ⟨(), hmanifest, ?_⟩
    rw [hwidth, Bool.not_true, if_neg Bool.false_ne_true]
    have hothers : ∀ input ∈ candidate.env.filter fun input => input.name ≠ DIAGNOSTIC_WIDTH_INPUT,
        checkEnv m b input = .ok () := fun input hin =>
      henv input (List.mem_filter.1 hin).1 (of_decide_eq_true (List.mem_filter.1 hin).2)
    exact bind_eq_ok.2 ⟨(), forM_eq_ok.2 fun input hin => hothers input (List.mem_filter.1 hin).1,
      bind_eq_ok.2 ⟨(), forM_eq_ok.2 fun input hin => hothers input (List.mem_filter.1 hin).1,
        bind_eq_ok.2 ⟨(), forM_eq_ok.2 hfiles, forM_eq_ok.2 hhost⟩⟩⟩

end Bellows.Cli
