/-
A candidate is accepted exactly where the compile would see what it saw: in
another checkout, on another machine, at another time.

Every file that was read has its content again where its normalized path leads
there, every variable is seen alike, every root that the outputs embed is the
same, and the terminal is as wide where diagnostics depend on it. A variable
with the name of a pin or of the width takes that input's place, and is compared
with it (`validateCandidate_iff`).
-/
import Bellows.Cli.Agreement

namespace Bellows.Cli

open Text Bellows.Core Checked KeyedSort

/-! ## What is the same -/

/-- No two files that were read have one normalized path. -/
def ToldApart (m : Machine) (a : BuildIdentity) (compile : Compile) : Prop :=
  ∀ path other, compile.Reads m a path → compile.Reads m a other →
    a.normalizer.normalize path = a.normalizer.normalize other → path = other

/-- They have not where each is led back to by it. -/
theorem toldApart_of_keepsText {m : Machine} {a : BuildIdentity} {compile : Compile} (hbuilt : a.normalizer.Built)
    (h : ∀ path, compile.Reads m a path → a.normalizer.KeepsText path) : ToldApart m a compile := by
  intro path other hread hother heq
  calc path = a.normalizer.localize (a.normalizer.normalize path) := (hbuilt.localize_normalize (h path hread)).symm
    _ = other := by rw [heq, hbuilt.localize_normalize (h other hother)]

/-- Where the file that was read is looked for. -/
def whereabouts (a b : BuildIdentity) (path : Text) : Text :=
  if StoredUnderRoot a.normalizer path then localizedPath b (a.normalizer.normalize path) else path

/-- What is found there has the content, and is in no third checkout. -/
structure SameFile (m : Machine) (a : BuildIdentity) (m' : Machine) (b : BuildIdentity) (path : Text) : Prop where
  content : ∃ digest, m.fs.digest path = some digest ∧
    BuildScript.inputDigest (m'.world b.toIdentity 0) (whereabouts a b path) = .ok digest
  ours : (StoredUnderRoot a.normalizer path → outsideCheckoutRoots (a.normalizer.normalize path) = true) →
    ¬ Foreign m' b (whereabouts a b path)

/-- The value is recorded as it is: it names no root, or one that leaked. -/
def RecordedRaw (m : Machine) (a : BuildIdentity) (compile : Compile) (value : Text) : Prop :=
  a.rootNormalizer.normalize value = value ∨ NamesLeaked m a compile (a.rootNormalizer.normalize value)

/-- Unset for both, or with one value; where it is not recorded raw, with one
normalized value. -/
def SameVar (m : Machine) (a : BuildIdentity) (compile : Compile) (m' : Machine) (b : BuildIdentity) (name : Text) :
    Prop :=
  match a.envValue m.var name, b.envValue m'.var name with
  | none, none => True
  | some value, some other => (RecordedRaw m a compile value → other = value) ∧
      (¬ RecordedRaw m a compile value → b.rootNormalizer.normalize other = a.rootNormalizer.normalize value)
  | _, _ => False

/-- What the compile saw, it would see again. -/
structure SeesAgain (m : Machine) (a : BuildIdentity) (compile : Compile) (m' : Machine) (b : BuildIdentity) :
    Prop where
  files : ∀ path, compile.Reads m a path → SameFile m a m' b path
  vars : ∀ name, ReadsVar m compile name → ¬ PIN_PREFIX <+: name → name ≠ DIAGNOSTIC_WIDTH_INPUT →
    SameVar m a compile m' b name
  roots : ∀ token value, Leaked m a compile token → ¬ ReadsVar m compile (pinName token) →
    a.pinValue (pinName token) = some value → b.pinValue (pinName token) = some value
  width : ¬ ReadsVar m compile DIAGNOSTIC_WIDTH_INPUT → recordedWidth a compile ∈ [ANY_DIAGNOSTIC_WIDTH, b.width]
  /-- The variables that are taken for pins, and for the width. -/
  pinVars : ∀ name, ReadsVar m compile name → PIN_PREFIX <+: name →
    ∃ value, b.pinValue name = some value ∧ RecordedAs m a compile name value
  widthVar : ReadsVar m compile DIAGNOSTIC_WIDTH_INPUT →
    ∃ value ∈ [ANY_DIAGNOSTIC_WIDTH, b.width], RecordedAs m a compile DIAGNOSTIC_WIDTH_INPUT value

/-! ## Files -/

section Files

variable {m m' : Machine} {a b : BuildIdentity} {compile : Compile} {input : FileInput} {path : Text}

theorem checkDigest_eq_ok : checkDigest m b input path = .ok () ↔
    BuildScript.inputDigest (m.world b.toIdentity 0) path = .ok input.digest := by
  unfold checkDigest
  cases BuildScript.inputDigest (m.world b.toIdentity 0) path with
  | error _ => exact iff_of_false (by rintro ⟨⟩) (by rintro ⟨⟩)
  | ok actual =>
    dsimp only
    split
    · next hne => exact iff_of_false (by rintro ⟨⟩) fun heq => hne (Except.ok.inj heq)
    · next heq => exact iff_of_true rfl (congrArg Except.ok (not_not.1 heq))

/-- The content that is asked for is the one that was recorded. -/
theorem content_iff {there : Text} (hdigest : m.fs.digest path = some input.digest) :
    (∃ digest, m.fs.digest path = some digest ∧
      BuildScript.inputDigest (m'.world b.toIdentity 0) there = .ok digest) ↔
      checkDigest m' b input there = .ok () := by
  rw [checkDigest_eq_ok, hdigest]
  simp

theorem checkFile_iff_sameFile (hstored : StoredUnderRoot a.normalizer path)
    (hpath : input.path = a.normalizer.normalize path) (hdigest : m.fs.digest path = some input.digest) :
    checkFile m' b input = .ok () ↔ SameFile m a m' b path := by
  have hwhere : whereabouts a b path = localizedPath b input.path := by rw [whereabouts, if_pos hstored, hpath]
  rw [checkFile_eq_ok, ← content_iff (m := m) hdigest, hpath]
  rw [hpath] at hwhere
  constructor
  · rintro ⟨hforeign, hcontent⟩
    exact ⟨hwhere ▸ hcontent, fun hout => hwhere ▸ hforeign (hout hstored)⟩
  · rintro ⟨hcontent, hours⟩
    exact ⟨fun hout => hwhere ▸ hours fun _ => hout, hwhere ▸ hcontent⟩

theorem checkHostFile_iff_sameFile (hstored : ¬ StoredUnderRoot a.normalizer path) (hpath : input.path = path)
    (hdigest : m.fs.digest path = some input.digest) :
    checkHostFile m' b input = .ok () ↔ SameFile m a m' b path := by
  have hwhere : whereabouts a b path = path := if_neg hstored
  rw [checkHostFile_eq_ok, ← content_iff (m := m) hdigest, hpath]
  constructor
  · rintro ⟨hforeign, hcontent⟩
    exact ⟨by rw [hwhere]; exact hcontent, fun _ => by rw [hwhere]; exact hforeign⟩
  · rintro ⟨hcontent, hours⟩
    rw [hwhere] at hcontent hours
    exact ⟨hours fun h => absurd h hstored, hcontent⟩

/-- The files of a candidate are accepted where each file that was read is the
same. -/
theorem checkInputs_iff (hapart : ToldApart m a compile) {inputs : Inputs}
    (hfrom : inputs.From (m.world a.toIdentity compile.started) (compile.Reads m a))
    (hhas : ∀ path, compile.Reads m a path → inputs.Has (m.world a.toIdentity compile.started) path) :
    ((∀ input ∈ inputs.files, checkFile m' b input = .ok ()) ∧
        ∀ input ∈ inputs.hostFiles, checkHostFile m' b input = .ok ()) ↔
      ∀ path, compile.Reads m a path → SameFile m a m' b path := by
  constructor
  · intro h path hread
    rcases hhas path hread with ⟨input, hin, hpath⟩ | ⟨input, hin, hpath⟩
    · obtain ⟨origin, horigin, hstored, hpath', hdigest⟩ := hfrom.files input hin
      obtain rfl : origin = path := hapart origin path horigin hread (hpath'.symm.trans hpath)
      exact (checkFile_iff_sameFile hstored hpath hdigest).1 (h.1 input hin)
    · obtain ⟨origin, -, hstored, hpath', hdigest⟩ := hfrom.hostFiles input hin
      obtain rfl : origin = path := hpath'.symm.trans hpath
      exact (checkHostFile_iff_sameFile hstored hpath hdigest).1 (h.2 input hin)
  · intro h
    refine ⟨fun input hin => ?_, fun input hin => ?_⟩
    · obtain ⟨path, hread, hstored, hpath, hdigest⟩ := hfrom.files input hin
      exact (checkFile_iff_sameFile hstored hpath hdigest).2 (h path hread)
    · obtain ⟨path, hread, hstored, hpath, hdigest⟩ := hfrom.hostFiles input hin
      exact (checkHostFile_iff_sameFile hstored hpath hdigest).2 (h path hread)

end Files

/-! ## Variables -/

section Variables

variable {texts : Set Text} {m m' : Machine} {a b : BuildIdentity} {compile : Compile} {leaked : List Text}
  {name : Text}

/-- A variable recorded by its normalized value is compared with it. -/
theorem valueDigest_currentInput (digest : Text → Text) (normalized : Text) :
    (currentInput m' b (.captureNormalized digest name normalized)).valueDigest =
      (b.envValue m'.var name).map fun value => m'.digestBytes (b.rootNormalizer.normalize value) := by
  cases hvalue : b.envValue m'.var name <;> simp [currentInput, EnvInput.captureNormalized, EnvInput.capture, hvalue]

/-- A variable is accepted where it is seen alike. -/
theorem currentInput_iff_sameVar (hd : DigestedAll texts m a) (hd' : DigestedAll texts m' b)
    (hdigest : m'.digestBytes = m.digestBytes) (hleaked : ∀ token, token ∈ leaked ↔ Leaked m a compile token) :
    (currentInput m' b (envInput m a leaked name)).valueDigest = (envInput m a leaked name).valueDigest ↔
      SameVar m a compile m' b name := by
  unfold SameVar
  cases henv : a.envValue m.var name with
  | none =>
    have hnone : envInput m a leaked name = .capture m.digestBytes name none := by rw [envInput, henv]
    rw [hnone]
    show (b.envValue m'.var name).map m'.digestBytes = none ↔ _
    cases b.envValue m'.var name <;> simp
  | some value =>
    rcases envInput_of_value hleaked henv with ⟨hraw, heq⟩ | ⟨hraw, heq⟩
    · rw [heq]
      show (b.envValue m'.var name).map m'.digestBytes = some (m.digestBytes value) ↔ _
      cases hother : b.envValue m'.var name with
      | none => simp
      | some other =>
        have hsame : m'.digestBytes other = m.digestBytes value ↔ other = value := by
          rw [hdigest]
          exact ⟨fun h => hd.injOn (hd'.values name other hother) (hd.values name value henv) h, congrArg _⟩
        rw [Option.map_some, Option.some.injEq, hsame]
        exact ⟨fun h => ⟨fun _ => h, fun hnot => absurd hraw hnot⟩, fun h => h.1 hraw⟩
    · rw [heq, valueDigest_currentInput]
      show (b.envValue m'.var name).map _ = some (m.digestBytes (a.rootNormalizer.normalize value)) ↔ _
      cases hother : b.envValue m'.var name with
      | none => simp
      | some other =>
        have hsame : m'.digestBytes (b.rootNormalizer.normalize other) =
            m.digestBytes (a.rootNormalizer.normalize value) ↔
              b.rootNormalizer.normalize other = a.rootNormalizer.normalize value := by
          rw [hdigest]
          exact ⟨fun h => hd.injOn (hd'.normalized name other hother) (hd.normalized name value henv) h, congrArg _⟩
        rw [Option.map_some, Option.some.injEq, hsame]
        exact ⟨fun h => ⟨fun hyes => absurd hyes hraw, fun _ => h⟩, fun h => h.2 hraw⟩

/-- A root's pin is told from another's. -/
theorem endsWith_pinName : ∀ token ∈ scannedRoots, ∀ other ∈ scannedRoots,
    endsWith (pinName other) token = true → other = token := by decide

/-- The pins that are recorded are those of the roots that leaked. -/
theorem mem_leakedPins_iff (hroots : ∀ token ∈ leaked, token ∈ scannedRoots) {value : Text} :
    (name, value) ∈ leakedPins a leaked ↔ ∃ token ∈ leaked, name = pinName token ∧ a.pinValue name = some value := by
  simp only [BuildIdentity.pinValue_eq_some]
  constructor
  · intro h
    obtain ⟨hpin, hany⟩ := List.mem_filter.1 h
    obtain ⟨token, htoken, hends⟩ := List.any_eq_true.1 hany
    obtain ⟨other, hother, hname⟩ := a.named _ hpin
    have hname : name = pinName other := hname
    rw [hname] at hends hpin
    rw [hname]
    exact ⟨token, htoken, by rw [endsWith_pinName token (hroots token htoken) other hother hends], hpin⟩
  · rintro ⟨token, htoken, rfl, hpin⟩
    exact mem_leakedPins htoken hpin

/-- The environment of a candidate is accepted where the variables are seen
alike and the roots that leaked are the same. -/
theorem checkVars_iff (hd : DigestedAll texts m a) (hd' : DigestedAll texts m' b)
    (hdigest : m'.digestBytes = m.digestBytes) (hleaked : ∀ token, token ∈ leaked ↔ Leaked m a compile token)
    {names : List Text} :
    (∀ input ∈ sortedBy EnvInput.name (envInputs m a compile leaked names),
        input.name ≠ DIAGNOSTIC_WIDTH_INPUT → checkEnv m' b input = .ok ()) ↔
      (∀ name ∈ names, ¬ PIN_PREFIX <+: name → name ≠ DIAGNOSTIC_WIDTH_INPUT → SameVar m a compile m' b name) ∧
        (∀ name ∈ names, PIN_PREFIX <+: name →
          ∃ value, b.pinValue name = some value ∧ RecordedAs m a compile name value) ∧
        ∀ token value, Leaked m a compile token → pinName token ∉ names → a.pinValue (pinName token) = some value →
          b.pinValue (pinName token) = some value := by
  have hroots : ∀ token ∈ leaked, token ∈ scannedRoots := by
    intro token htoken
    obtain ⟨-, -, -, -, -, scanner, hscanner, -⟩ := (hleaked token).1 htoken
    exact (mem_scannersOf.1 hscanner).1
  have hread : ∀ name ∈ names, envInput m a leaked name ∈ sortedBy EnvInput.name (envInputs m a compile leaked names) :=
    fun name hname => by rw [mem_env, envInput_name, recordedInput_of_mem hname]
  have hpinned : ∀ name ∈ names, PIN_PREFIX <+: name → (checkEnv m' b (envInput m a leaked name) = .ok () ↔
      ∃ value, b.pinValue name = some value ∧ RecordedAs m a compile name value) := by
    intro name _ hpre
    rw [checkEnv_pin (by rwa [envInput_name]), envInput_name]
    refine exists_congr fun value => and_congr_right fun hvalue => ?_
    rw [hdigest]
    exact valueDigest_envInput hd hleaked (hd'.pins _ (BuildIdentity.pinValue_eq_some.1 hvalue))
  have hnamed : ∀ name ∈ names, ¬ PIN_PREFIX <+: name → (checkEnv m' b (envInput m a leaked name) = .ok () ↔
      SameVar m a compile m' b name) := by
    intro name _ hpre
    rw [checkEnv_named (by rwa [envInput_name])]
    exact currentInput_iff_sameVar hd hd' hdigest hleaked
  have hroot : ∀ token value, a.pinValue (pinName token) = some value →
      (checkEnv m' b (.capture m.digestBytes (pinName token) (some value)) = .ok () ↔
        b.pinValue (pinName token) = some value) := by
    intro token value hvalue
    rw [checkEnv_pin (List.prefix_append _ _), EnvInput.capture_name]
    constructor
    · rintro ⟨other, hother, heq⟩
      have hsame : value = other := hd.injOn (hd.pins _ (BuildIdentity.pinValue_eq_some.1 hvalue))
        (hd'.pins _ (BuildIdentity.pinValue_eq_some.1 hother)) (Option.some.inj (hdigest ▸ heq))
      rw [hother, hsame]
    · intro hother
      exact ⟨value, hother, by rw [hdigest]; rfl⟩
  constructor
  · intro h
    refine ⟨fun name hname hpre hne => ?_, fun name hname hpre => ?_, fun token value htoken hname hvalue => ?_⟩
    · exact (hnamed name hname hpre).1 (h _ (hread name hname) (by rwa [envInput_name]))
    · have hne : name ≠ DIAGNOSTIC_WIDTH_INPUT := fun he => not_prefix_width (he ▸ hpre)
      exact (hpinned name hname hpre).1 (h _ (hread name hname) (by rwa [envInput_name]))
    · have hpin := (mem_leakedPins_iff hroots).2 ⟨token, (hleaked token).2 htoken, rfl, hvalue⟩
      have hne : pinName token ≠ DIAGNOSTIC_WIDTH_INPUT := pinName_ne_width (hroots token ((hleaked token).2 htoken))
      exact (hroot token value hvalue).1 (h _ (mem_env.2 (recordedInput_of_pin hname hpin)) hne)
  · rintro ⟨hvars, hpinVars, hpins⟩ input hin hne
    rw [mem_env] at hin
    by_cases hname : input.name ∈ names
    · rw [recordedInput_of_mem hname, Option.some.injEq] at hin
      rw [← hin]
      by_cases hpre : PIN_PREFIX <+: input.name
      · exact (hpinned _ hname hpre).2 (hpinVars _ hname hpre)
      · exact (hnamed _ hname hpre).2 (hvars _ hname hpre hne)
    · rw [recordedInput, if_neg hname, if_neg hne, Option.or_none] at hin
      obtain ⟨⟨pin, value⟩, hfind, rfl⟩ := Option.map_eq_some_iff.1 hin
      obtain ⟨token, htoken, hpin, hvalue⟩ := (mem_leakedPins_iff hroots).1 (List.mem_of_find?_eq_some hfind)
      subst hpin
      exact (hroot token value hvalue).2 (hpins token value ((hleaked token).1 htoken) hname hvalue)

/-- The width is accepted where diagnostics do not depend on it, or the
terminal is as wide. -/
theorem widthMatches_iff_width (hd : DigestedAll texts m a) (hd' : DigestedAll texts m' b)
    (hdigest : m'.digestBytes = m.digestBytes) {captured : Captured} (inputs : Inputs) (depText : Text)
    (hleaked : ∀ token, token ∈ captured.leaked ↔ Leaked m a compile token) :
    widthMatches m' b (candidateOf m a compile captured inputs depText) = true ↔
      (DIAGNOSTIC_WIDTH_INPUT ∉ envDeps depText → recordedWidth a compile ∈ [ANY_DIAGNOSTIC_WIDTH, b.width]) ∧
        (DIAGNOSTIC_WIDTH_INPUT ∈ envDeps depText →
          ∃ value ∈ [ANY_DIAGNOSTIC_WIDTH, b.width], RecordedAs m a compile DIAGNOSTIC_WIDTH_INPUT value) := by
  have hfind : (candidateOf m a compile captured inputs depText).env.find?
      (fun input => input.name = DIAGNOSTIC_WIDTH_INPUT) =
      recordedInput m a compile captured.leaked (envDeps depText) DIAGNOSTIC_WIDTH_INPUT := by
    rw [← find?_envInputs]
    exact find?_sortedBy EnvInput.name _ _
  have htexts : ∀ value ∈ [ANY_DIAGNOSTIC_WIDTH, b.width], value ∈ texts := hd'.widths
  unfold widthMatches
  rw [hfind, hdigest]
  by_cases hname : DIAGNOSTIC_WIDTH_INPUT ∈ envDeps depText
  · rw [recordedInput_of_mem hname]
    simp only [List.any_eq_true, beq_iff_eq, hname, true_imp_iff, not_true, false_imp_iff, true_and]
    exact exists_congr fun value => and_congr_right fun hvalue => valueDigest_envInput hd hleaked (htexts value hvalue)
  · have hwidth : recordedInput m a compile captured.leaked (envDeps depText) DIAGNOSTIC_WIDTH_INPUT =
        some (.capture m.digestBytes DIAGNOSTIC_WIDTH_INPUT (some (recordedWidth a compile))) := by
      have hpins : (leakedPins a captured.leaked).find? (fun pin => pin.1 = DIAGNOSTIC_WIDTH_INPUT) = none := by
        rw [List.find?_eq_none]
        intro pin hpin heq
        obtain ⟨token, -, htoken⟩ := a.named pin (List.mem_filter.1 hpin).1
        rw [of_decide_eq_true heq] at htoken
        exact not_prefix_width ⟨token, htoken.symm⟩
      rw [recordedInput, if_neg hname, hpins, if_pos rfl, Option.map_none, Option.none_or]
    have hrecorded : recordedWidth a compile ∈ texts := by
      apply hd.widths
      unfold recordedWidth
      split <;> simp
    rw [hwidth]
    simp only [List.any_eq_true, beq_iff_eq, hname, not_false_iff, true_imp_iff, false_imp_iff, and_true]
    constructor
    · rintro ⟨value, hvalue, heq⟩
      rwa [hd.injOn hrecorded (htexts value hvalue) (Option.some.inj heq)]
    · intro hmem
      exact ⟨_, hmem, rfl⟩

end Variables

/-! ## All of it -/

/-- **A candidate is served exactly where the compile would see what it saw.**
The two machines have one digest and one action key; no two of the texts that
they digest collide. -/
theorem validateCandidate_iff {texts : Set Text} {m m' : Machine} {a b : BuildIdentity} {compile : Compile}
    {candidate : ActionCandidate} (hd : DigestedAll texts m a) (hd' : DigestedAll texts m' b)
    (hdigest : m'.digestBytes = m.digestBytes) (hkey : m'.actionKey = m.actionKey) (hapart : ToldApart m a compile)
    (h : captureOutputs m a compile = .ok candidate) :
    validateCandidate m' b candidate = .ok () ↔ SeesAgain m a compile m' b := by
  obtain ⟨captured, depText, inputs, hdep, hleaked, hinputs, rfl, hmanifest⟩ := captureOutputs_ok h
  have hreads : ∀ path, compile.Reads m a path ↔ (Tool.compiler compile.invocation depText compile.link).Reads
      (m.world a.toIdentity compile.started) path := fun path => by
    simp only [Compile.Reads, hdep, Option.some.injEq, exists_eq_left']
  have hreadsVar : ∀ name, ReadsVar m compile name ↔ name ∈ envDeps depText := fun name => by
    simp only [ReadsVar, hdep, Option.some.injEq, exists_eq_left']
  obtain ⟨hfrom, -⟩ := compilerInputs_from hinputs
  have hreadsFrom : inputs.From (m.world a.toIdentity compile.started) (compile.Reads m a) :=
    ⟨fun input hin => (hfrom.files input hin).imp fun path hp => ⟨(hreads path).2 hp.1, hp.2⟩,
      fun input hin => (hfrom.hostFiles input hin).imp fun path hp => ⟨(hreads path).2 hp.1, hp.2⟩⟩
  have hfiles := @checkInputs_iff m m' a b compile hapart inputs hreadsFrom fun path hread =>
    (compilerInputs_ok hinputs ((hreads path).1 hread)).2
  have hvars := @checkVars_iff texts m m' a b compile captured.leaked hd hd' hdigest hleaked (envDeps depText)
  have hwidth := widthMatches_iff_width hd hd' hdigest inputs depText hleaked
  rw [validateCandidate_eq_ok]
  constructor
  · rintro ⟨-, hw, he, hf, hh⟩
    obtain ⟨hnamed, hpinned, hroots⟩ := hvars.1 he
    obtain ⟨hwide, hwideVar⟩ := hwidth.1 hw
    exact {
      files := hfiles.1 ⟨hf, hh⟩
      vars := fun name hname => hnamed name ((hreadsVar name).1 hname)
      roots := fun token value htoken hname => hroots token value htoken fun hin => hname ((hreadsVar _).2 hin)
      width := fun hname => hwide fun hin => hname ((hreadsVar _).2 hin)
      pinVars := fun name hname => hpinned name ((hreadsVar name).1 hname)
      widthVar := fun hname => hwideVar ((hreadsVar _).1 hname) }
  · intro hsees
    obtain ⟨hf, hh⟩ := hfiles.2 hsees.files
    exact ⟨hkey ▸ hmanifest,
      hwidth.2 ⟨fun hname => hsees.width fun hread => hname ((hreadsVar _).1 hread),
        fun hname => hsees.widthVar ((hreadsVar _).2 hname)⟩,
      hvars.2 ⟨fun name hname => hsees.vars name ((hreadsVar name).2 hname),
        fun name hname => hsees.pinVars name ((hreadsVar name).2 hname),
        fun token value htoken hname => hsees.roots token value htoken fun hread => hname ((hreadsVar _).1 hread)⟩,
      hf, hh⟩

/-! ## Two checkouts of one crate

`/w/one` and `/w/two`. The program reads the directory of its manifest, and no
output embeds it. -/

def twinFiles : List Text :=
  ["/w/one/src/lib.rs", "/w/two/src/lib.rs", "/w/one/target/debug/deps/d.d",
    "/w/one/target/debug/deps/libd.rlib"].map String.toList

/-- The texts digested. -/
def twinTexts : List Text :=
  ["/w/one", "/w/two", "/w/one/target", "/w/two/target", "/h", "*", "absent", "$WORKSPACE"].map String.toList

def twinMachine (workspace : Text) : Machine where
  fs := .still twinFiles checkoutDirectories fun _ => hex 'a'
  var := fun name =>
    if name = "CARGO_MANIFEST_DIR".toList then some workspace
    else if name = "HOME".toList then some "/h".toList else none
  currentDir := some workspace
  digestBytes := fun text => hex (Char.ofNat (48 + twinTexts.idxOf text))
  actionKey := fun _ _ _ _ => hex 'b'
  fuel := 1

def twinIdentity (workspace : Text) : BuildIdentity :=
  identityIn (twinMachine workspace).toProcess workspace
    { outDir := join workspace "target/debug/deps".toList, source := some "src/lib.rs".toList,
      staticKey := hex 'c', virtualEnv := [], diagnosticWidth := none }

def twinCompile : Compile where
  invocation := ⟨.library, ["src/lib.rs".toList], [], [], false⟩
  crateName := "d".toList
  outDir := "/w/one/target/debug/deps".toList
  names := ["d.d".toList, "libd.rlib".toList]
  procMacros := []
  stdout := []
  stderr := []
  started := 10000000000
  createdMs := 0
  link := none
  read := fun path =>
    if path = "/w/one/target/debug/deps/d.d".toList then
      some (utf8 "d: src/lib.rs\n\n# env-dep:CARGO_MANIFEST_DIR=/w/one\n".toList)
    else some []
  executable := fun _ => some false
  digestOutput := fun _ => hex 'd'
  transformDepInfo := id
  transformStream := id
  checkBundledMembers := fun _ => .ok ()

def twinCandidate : ActionCandidate where
  protocol := 6
  staticKey := hex 'c'
  actionKey := hex 'b'
  crateName := "d".toList
  createdMs := 0
  files := [⟨"$WORKSPACE/src/lib.rs".toList, hex 'a'⟩]
  hostFiles := []
  env := [⟨DIAGNOSTIC_WIDTH_INPUT, some (hex '5'), false⟩, ⟨"CARGO_MANIFEST_DIR".toList, some (hex '7'), true⟩]
  artifacts := [⟨"d.d".toList, hex 'd', false⟩, ⟨"libd.rlib".toList, hex 'd', false⟩]
  stdout := ⟨hex 'd', 0⟩
  stderr := ⟨hex 'd', 0⟩
  procMacros := []

theorem captureOutputs_twin : captureOutputs (twinMachine "/w/one".toList) (twinIdentity "/w/one".toList) twinCompile =
    .ok twinCandidate := by
  decide +kernel

theorem digested_twin : ∀ workspace ∈ ["/w/one".toList, "/w/two".toList],
    DigestedAll {text | text ∈ twinTexts} (twinMachine workspace) (twinIdentity workspace) := by
  intro workspace hworkspace
  have hvalue : ∀ name value, (twinIdentity workspace).envValue (twinMachine workspace).var name = some value →
      value ∈ [workspace, "/h".toList] := by
    intro name value h
    have h : (if name = "CARGO_MANIFEST_DIR".toList then some workspace
      else if name = "HOME".toList then some "/h".toList else none) = some value := h
    split at h
    · simp [← Option.some.inj h]
    · split at h
      · simp [← Option.some.inj h]
      · cases h
  refine ⟨⟨?_, ?_, fun name value h => ?_⟩, fun name value h => ?_, ?_⟩
  · exact fun x hx y hy => (by decide +kernel : ∀ x ∈ twinTexts, ∀ y ∈ twinTexts,
      hex (Char.ofNat (48 + twinTexts.idxOf x)) = hex (Char.ofNat (48 + twinTexts.idxOf y)) → x = y) x hx y hy
  · exact (by decide +kernel : ∀ workspace ∈ ["/w/one".toList, "/w/two".toList],
      ∀ pin ∈ (twinIdentity workspace).pins, pin.2 ∈ twinTexts) workspace hworkspace
  · exact (by decide +kernel : ∀ workspace ∈ ["/w/one".toList, "/w/two".toList],
      ∀ value ∈ [workspace, "/h".toList], value ∈ twinTexts) workspace hworkspace value (hvalue name value h)
  · exact (by decide +kernel : ∀ workspace ∈ ["/w/one".toList, "/w/two".toList],
      ∀ value ∈ [workspace, "/h".toList], (twinIdentity workspace).rootNormalizer.normalize value ∈ twinTexts)
      workspace hworkspace value (hvalue name value h)
  · exact (by decide +kernel : ∀ workspace ∈ ["/w/one".toList, "/w/two".toList],
      ∀ value ∈ [ANY_DIAGNOSTIC_WIDTH, (twinIdentity workspace).width], value ∈ twinTexts) workspace hworkspace

/-- The crate root is all that is read. -/
theorem reads_twin {path : Text}
    (h : twinCompile.Reads (twinMachine "/w/one".toList) (twinIdentity "/w/one".toList) path) :
    path = "/w/one/src/lib.rs".toList := by
  obtain ⟨depText, hdep, ⟨paths, hpaths, p, hp, hpath⟩ | ⟨l, hl, -⟩⟩ := h
  · have hread : depInfo (twinMachine "/w/one".toList) twinCompile =
        some "d: src/lib.rs\n\n# env-dep:CARGO_MANIFEST_DIR=/w/one\n".toList := by
      decide +kernel
    obtain rfl := Option.some.inj (hread.symm.trans hdep)
    have hfound : filePaths ((twinMachine "/w/one".toList).world (twinIdentity "/w/one".toList).toIdentity
        twinCompile.started) twinCompile.invocation "d: src/lib.rs\n\n# env-dep:CARGO_MANIFEST_DIR=/w/one\n".toList =
        .ok ["src/lib.rs".toList, "src/lib.rs".toList] := by
      decide +kernel
    obtain rfl := Except.ok.inj (hfound.symm.trans hpaths)
    have hone : ∀ p ∈ sortedPaths ["src/lib.rs".toList, "src/lib.rs".toList],
        compilerInput ((twinMachine "/w/one".toList).world (twinIdentity "/w/one".toList).toIdentity
          twinCompile.started) p = .ok "/w/one/src/lib.rs".toList := by
      decide +kernel
    exact Except.ok.inj (hpath.symm.trans (hone p hp))
  · cases hl

theorem toldApart_twin : ToldApart (twinMachine "/w/one".toList) (twinIdentity "/w/one".toList) twinCompile :=
  toldApart_of_keepsText (PathNormalizer.built_new (by decide +kernel)) fun path hread => by
    rw [reads_twin hread]
    decide +kernel

/-- What was compiled in `/w/one` is served in `/w/two`. -/
theorem validateCandidate_iff_twin : SeesAgain (twinMachine "/w/one".toList) (twinIdentity "/w/one".toList) twinCompile
    (twinMachine "/w/two".toList) (twinIdentity "/w/two".toList) :=
  (validateCandidate_iff (digested_twin "/w/one".toList (by decide)) (digested_twin "/w/two".toList (by decide)) rfl rfl
    toldApart_twin captureOutputs_twin).1 (by decide +kernel)

end Bellows.Cli
