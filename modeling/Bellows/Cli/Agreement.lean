/-
A candidate that nothing changed for is accepted again by the identity it was
captured under, but for three disagreements.

Capture takes a file for one of another checkout only when its normalized
path has no root's text at its front, while validation asks that of every host
file: what lies beside a root, under a name that the root's begins, is stored
and then refused. A normalized path is read back by the text of its tokens,
which may spell another path. And an environment variable may have the name of
a synthetic input (`captureOutputs_agrees_iff`).
-/
import Bellows.Cli.CaptureFacts
import Bellows.Cli.Pins

namespace Bellows.Cli

open Text Bellows.Core Checked KeyedSort

/-! ## Where recorded inputs come from -/

/-- The normalized path is one an input may be stored under. -/
def StoredUnderRoot (normalizer : PathNormalizer) (path : Text) : Prop :=
  (validateNormalizedInputPath (normalizer.normalize path)).isOk = true

instance (normalizer : PathNormalizer) (path : Text) : Decidable (StoredUnderRoot normalizer path) :=
  inferInstanceAs (Decidable (_ = _))

/-- Every recorded file was read, and has the digest it had then. -/
structure Inputs.From (w : World) (reads : Text → Prop) (inputs : Inputs) : Prop where
  files : ∀ input ∈ inputs.files, ∃ path, reads path ∧ StoredUnderRoot w.identity.normalizer path ∧
    input.path = w.identity.normalizer.normalize path ∧ w.fs.digest path = some input.digest
  hostFiles : ∀ input ∈ inputs.hostFiles, ∃ path, reads path ∧ ¬ StoredUnderRoot w.identity.normalizer path ∧
    input.path = path ∧ w.fs.digest path = some input.digest

theorem Inputs.From.push {w : World} {reads : Text → Prop} {inputs : Inputs} (h : inputs.From w reads)
    {path digest : Text} (hread : reads path) (hdigest : w.fs.digest path = some digest) :
    (inputs.push (w.identity.normalizer.normalize path) path digest).From w reads := by
  unfold Inputs.push
  split
  · next hroot =>
    refine ⟨fun input hin => ?_, h.hostFiles⟩
    rcases List.mem_append.1 hin with hin | hin
    · exact h.files input hin
    · rw [List.mem_singleton.1 hin]
      exact ⟨path, hread, hroot, rfl, hdigest⟩
  · next hroot =>
    refine ⟨h.files, fun input hin => ?_⟩
    rcases List.mem_append.1 hin with hin | hin
    · exact h.hostFiles input hin
    · rw [List.mem_singleton.1 hin]
      exact ⟨path, hread, hroot, rfl, hdigest⟩

theorem Inputs.From.sorted {w : World} {reads : Text → Prop} {inputs : Inputs} (h : inputs.From w reads) :
    inputs.sorted.From w reads where
  files := fun input hin => h.files input (mem_of_mem_sortedBy FileInput.path hin)
  hostFiles := fun input hin => h.hostFiles input (mem_of_mem_sortedBy FileInput.path hin)

/-- What a file that is recorded went through. -/
structure Recordable (w : World) (path : Text) : Prop where
  ours : outsideCheckoutRoots (w.identity.normalizer.normalize path) = true →
    foreignCheckout w.fs path w.identity.checkout = false
  digested : ∃ digest, w.fs.digest path = some digest

theorem record_eq_push {w : World} {inputs after : Inputs} {path : Text} (h : record w inputs path = .ok after) :
    Recordable w path ∧ ∃ digest, w.fs.digest path = some digest ∧
      after = inputs.push (w.identity.normalizer.normalize path) path digest := by
  simp only [record] at h
  split at h
  · cases h
  next hforeign =>
    split at h
    · cases h
    obtain ⟨digest, hdigest, h⟩ := bind_eq_ok.1 h
    have hdigest := ask_eq_ok.1 hdigest
    refine ⟨⟨fun hout => ?_, digest, hdigest⟩, digest, hdigest, (pure_eq_ok.1 h).symm⟩
    rw [hout, Bool.true_and, Bool.not_eq_true] at hforeign
    exact hforeign

/-- The paths a compile reads are all that is recorded, and each of them could be. -/
theorem compilerInputs_from {w : World} {invocation : Invocation} {depText : Text} {link : Option LinkInputs}
    {inputs : Inputs} (h : compilerInputs w invocation depText link = .ok inputs) :
    inputs.From w ((Tool.compiler invocation depText link).Reads w) ∧
      ∀ path, (Tool.compiler invocation depText link).Reads w path → Recordable w path := by
  obtain ⟨paths, hpaths, h⟩ := bind_eq_ok.1 h
  obtain ⟨fromFiles, hfiles, h⟩ := bind_eq_ok.1 h
  obtain ⟨unsorted, hlink, h⟩ := bind_eq_ok.1 h
  obtain rfl := pure_eq_ok.1 h
  have hempty : Inputs.empty.From w ((Tool.compiler invocation depText link).Reads w) :=
    ⟨fun _ hin => absurd hin List.not_mem_nil, fun _ hin => absurd hin List.not_mem_nil⟩
  have hfrom : fromFiles.From w ((Tool.compiler invocation depText link).Reads w) := by
    refine foldlM_keeps_mem _ (fun s p hp t hstep hs => ?_) hfiles hempty
    obtain ⟨path, hpath, hrecord⟩ := bind_eq_ok.1 hstep
    obtain ⟨-, digest, hdigest, rfl⟩ := record_eq_push hrecord
    exact hs.push (.inl ⟨paths, hpaths, p, hp, hpath⟩) hdigest
  refine ⟨Inputs.From.sorted ?_, ?_⟩
  · cases link with
    | none =>
      obtain rfl := pure_eq_ok.1 hlink
      exact hfrom
    | some l =>
      refine foldlM_keeps_mem l.files (fun s p hp t hstep hs => ?_) hlink hfrom
      unfold recordLinked at hstep
      split at hstep
      · obtain rfl := pure_eq_ok.1 hstep
        exact hs
      · next hsys =>
        obtain ⟨-, digest, hdigest, rfl⟩ := record_eq_push hstep
        exact hs.push (.inr ⟨l, rfl, p, hp, rfl, Bool.eq_false_iff.2 hsys⟩) hdigest
  · rintro path (⟨paths', hpaths', p, hp, hpath⟩ | ⟨l, rfl, p, hp, rfl, hsys⟩)
    · obtain rfl : paths = paths' := Except.ok.inj (hpaths.symm.trans hpaths')
      refine forall_of_foldlM (P := fun p _ => ∀ path, compilerInput w p = .ok path → Recordable w path)
        (fun s p t hstep path hpath => ?_) (fun _ _ _ _ _ hb => hb) _ hfiles p hp path hpath
      obtain ⟨path', hpath', hrecord⟩ := bind_eq_ok.1 hstep
      obtain rfl : path' = path := Except.ok.inj (hpath'.symm.trans hpath)
      exact (record_eq_push hrecord).1
    · refine forall_of_foldlM (P := fun p _ => startsWith (linkInput w p) l.sysroot = false →
        Recordable w (linkInput w p)) (fun s p t hstep hsys => ?_)
        (fun _ _ _ _ _ hb => hb) l.files hlink p hp hsys
      rw [recordLinked, if_neg (Bool.eq_false_iff.1 hsys)] at hstep
      exact (record_eq_push hstep).1

/-! ## What agreement is -/

/-- A file the compile reads, as capture resolves it. -/
def Compile.Reads (m : Machine) (a : BuildIdentity) (compile : Compile) (path : Text) : Prop :=
  ∃ depText, depInfo m compile = some depText ∧
    (Tool.compiler compile.invocation depText compile.link).Reads (m.world a.toIdentity compile.started) path

/-- A later state of the machine, in which no file and no variable that was
recorded has changed. -/
structure Later (m m' : Machine) (a : BuildIdentity) (compile : Compile) : Prop where
  digestBytes : m'.digestBytes = m.digestBytes
  actionKey : m'.actionKey = m.actionKey
  lawful : m'.fs.Lawful
  files : ∀ path, compile.Reads m a path → m'.fs.canonicalize path = m.fs.canonicalize path ∧
    m'.fs.digest path = m.fs.digest path
  values : ∀ name, ReadsVar m compile name → m'.var name = m.var name

/-- At once, nothing has changed. -/
theorem Later.refl {m : Machine} (hm : m.fs.Lawful) (a : BuildIdentity) (compile : Compile) : Later m m a compile :=
  ⟨rfl, rfl, hm, fun _ _ => ⟨rfl, rfl⟩, fun _ _ => rfl⟩

/-- The normalized path leads to the file it was made of. -/
def LeadsBack (m' : Machine) (a : BuildIdentity) (path : Text) : Prop :=
  m'.fs.canonicalize (localizedPath a (a.normalizer.normalize path)) = some path

/-- The candidate is accepted, with each path that was normalized resolved to
the file that was read. -/
def Agrees (m m' : Machine) (a : BuildIdentity) (compile : Compile) (candidate : ActionCandidate) : Prop :=
  validateCandidate m' a candidate = .ok () ∧
    ∀ path, compile.Reads m a path → StoredUnderRoot a.normalizer path → LeadsBack m' a path

/-! ## When there is agreement -/

/-- The variable is recorded as the digest of `text`: of its normalized value,
if this names no root that leaked. -/
def RecordedAs (m : Machine) (a : BuildIdentity) (compile : Compile) (name text : Text) : Prop :=
  ∃ value, a.envValue m.var name = some value ∧
    ((a.rootNormalizer.normalize value = value ∨ NamesLeaked m a compile (a.rootNormalizer.normalize value)) ∧
        text = value ∨
      ¬ (a.rootNormalizer.normalize value = value ∨ NamesLeaked m a compile (a.rootNormalizer.normalize value)) ∧
        text = a.rootNormalizer.normalize value)

/-- The path is in another checkout. -/
def Foreign (m' : Machine) (a : BuildIdentity) (path : Text) : Prop :=
  foreignCheckout m'.fs path a.checkout = true

/-- What a file must satisfy: under a root, its normalized path leads back to
it; and it is in no other checkout, if it is a host file or under no root of
this one. -/
def FileResolves (m' : Machine) (a : BuildIdentity) (path : Text) : Prop :=
  if StoredUnderRoot a.normalizer path then
    LeadsBack m' a path ∧ (outsideCheckoutRoots (a.normalizer.normalize path) = true → ¬ Foreign m' a path)
  else ¬ Foreign m' a path

theorem fileResolves_of_stored {m' : Machine} {a : BuildIdentity} {path : Text} (h : StoredUnderRoot a.normalizer path) :
    FileResolves m' a path ↔ LeadsBack m' a path ∧
      (outsideCheckoutRoots (a.normalizer.normalize path) = true → ¬ Foreign m' a path) := by
  rw [FileResolves, if_pos h]

theorem fileResolves_of_not_stored {m' : Machine} {a : BuildIdentity} {path : Text}
    (h : ¬ StoredUnderRoot a.normalizer path) : FileResolves m' a path ↔ ¬ Foreign m' a path := by
  rw [FileResolves, if_neg h]

/-- Every file resolves, and the variables with the name of a synthetic input
have the value of that input. -/
structure Resolves (m m' : Machine) (a : BuildIdentity) (compile : Compile) : Prop where
  files : ∀ path, compile.Reads m a path → FileResolves m' a path
  pins : ∀ name, ReadsVar m compile name → PIN_PREFIX <+: name →
    ∃ value, a.pinValue name = some value ∧ RecordedAs m a compile name value
  width : ReadsVar m compile DIAGNOSTIC_WIDTH_INPUT →
    ∃ value ∈ [ANY_DIAGNOSTIC_WIDTH, a.width], RecordedAs m a compile DIAGNOSTIC_WIDTH_INPUT value

/-- The normalized path, its tokens spelled out, has the path's own text. -/
def SpelledBack (a : BuildIdentity) (path : Text) : Prop := localizedPath a (a.normalizer.normalize path) = path

/-- The nearest directory above the file that has a `.git` is not the checkout's. -/
def InOtherCheckout (m' : Machine) (a : BuildIdentity) (path : Text) : Prop :=
  ∃ root, gitRoot m'.fs ((parent path).getD path) = some root ∧ a.checkout.map components ≠ some (components root)

/-- A host file, or a file whose normalized path begins with no root's token. -/
def MustBeOurs (a : BuildIdentity) (path : Text) : Prop :=
  ¬ StoredUnderRoot a.normalizer path ∨ outsideCheckoutRoots (a.normalizer.normalize path) = true

/-- The same directories have a `.git`. -/
def SameCheckouts (m m' : Machine) : Prop :=
  ∀ dir, m'.fs.pathExists (join dir ".git".toList) = m.fs.pathExists (join dir ".git".toList)

/-- What agreement rests on, in the texts of the paths and the places of
checkouts. -/
structure Resolvable (m m' : Machine) (a : BuildIdentity) (compile : Compile) : Prop where
  spelled : ∀ path, compile.Reads m a path → StoredUnderRoot a.normalizer path → SpelledBack a path
  ours : ∀ path, compile.Reads m a path → MustBeOurs a path → ¬ InOtherCheckout m' a path
  pins : ∀ name, ReadsVar m compile name → PIN_PREFIX <+: name →
    ∃ value, a.pinValue name = some value ∧ RecordedAs m a compile name value
  width : ReadsVar m compile DIAGNOSTIC_WIDTH_INPUT →
    ∃ value ∈ [ANY_DIAGNOSTIC_WIDTH, a.width], RecordedAs m a compile DIAGNOSTIC_WIDTH_INPUT value

/-! ## Files -/

/-- Where paths resolve alike, they are in the same checkout. -/
theorem foreignCheckout_congr {fs : FileSystem} {path path' resolved : Text} {checkout : Option Text}
    (h : fs.canonicalize path = some resolved) (h' : fs.canonicalize path' = some resolved) :
    foreignCheckout fs path checkout = foreignCheckout fs path' checkout := by
  unfold foreignCheckout
  rw [h, h']
  rfl

/-- A file that can be read is checked by its content. -/
theorem inputDigest_of_digest {w : World} (hw : w.fs.Lawful) {path d : Text} (h : w.fs.digest path = some d) :
    BuildScript.inputDigest w path = .ok d := by
  obtain ⟨metadata, hm, hkind⟩ := hw.symlinkMetadata_of_digest path d h
  refine bind_eq_ok.2 ⟨metadata, ask_eq_ok.2 hm, ?_⟩
  rw [if_neg hkind, ask_eq_ok]
  exact h

theorem checkDigest_of_digest {m : Machine} (hm : m.fs.Lawful) {b : BuildIdentity} {input : FileInput} {path : Text}
    (h : m.fs.digest path = some input.digest) : checkDigest m b input path = .ok () := by
  rw [checkDigest, inputDigest_of_digest (w := m.world b.toIdentity 0) hm h]
  exact if_neg (not_not.2 rfl)

theorem canonicalize_compilerInput {w : World} (hw : w.fs.Lawful) {p path : Text} (h : compilerInput w p = .ok path) :
    w.fs.canonicalize path = some path := by
  unfold compilerInput canonicalCompilerInput at h
  dsimp only at h
  split at h
  · cases h
  · obtain ⟨_, -, h⟩ := bind_eq_ok.1 h
    exact hw.canonicalize_idem _ _ (ask_eq_ok.1 h)

theorem canonicalize_linkInput {w : World} (hw : w.fs.Lawful) {p d : Text}
    (h : w.fs.digest (linkInput w p) = some d) : w.fs.canonicalize (linkInput w p) = some (linkInput w p) := by
  obtain ⟨resolved, hresolved⟩ := hw.canonicalize_of_digest _ _ h
  cases hc : w.fs.canonicalize (absolutePath p w.identity.workspace) with
  | none =>
    -- the path would stand for itself, but what can be read resolves
    have hself : linkInput w p = absolutePath p w.identity.workspace := by simp only [linkInput, hc, Option.getD_none]
    rw [hself, hc] at hresolved
    cases hresolved
  | some target =>
    have htarget : linkInput w p = target := by simp only [linkInput, hc, Option.getD_some]
    rw [htarget]
    exact hw.canonicalize_idem _ _ hc

/-- What a compile read is found again, where it was. -/
theorem Later.canonical {m m' : Machine} {a : BuildIdentity} {compile : Compile} (hm : m.fs.Lawful)
    (later : Later m m' a compile) {path d : Text} (hread : compile.Reads m a path)
    (hdigest : m.fs.digest path = some d) : m'.fs.canonicalize path = some path := by
  rw [(later.files path hread).1]
  obtain ⟨depText, -, ⟨paths, -, p, -, hpath⟩ | ⟨l, -, p, -, rfl, -⟩⟩ := hread
  · exact canonicalize_compilerInput (w := m.world a.toIdentity compile.started) hm hpath
  · exact canonicalize_linkInput (w := m.world a.toIdentity compile.started) hm hdigest

/-- A path without a token's text, each root in it spelled as its token
localizes, is spelled back. -/
theorem spelledBack_of_keepsText {a : BuildIdentity} (hbuilt : a.normalizer.Built) {path : Text}
    (habsolute : isAbsolute path = true) (hkeeps : a.normalizer.KeepsText path) : SpelledBack a path := by
  rw [SpelledBack, localizedPath, hbuilt.localize_normalize hkeeps, absolutePath, if_pos habsolute]

theorem foreign_iff {m' : Machine} {a : BuildIdentity} {path : Text} (hcanonical : m'.fs.canonicalize path = some path) :
    Foreign m' a path ↔ InOtherCheckout m' a path := by
  unfold Foreign foreignCheckout InOtherCheckout
  rw [hcanonical]
  simp only [Option.getD_some]
  cases gitRoot m'.fs ((parent path).getD path) with
  | none => simp
  | some root => simp

theorem SameCheckouts.gitRoot {m m' : Machine} (h : SameCheckouts m m') (dir : Text) :
    gitRoot m'.fs dir = gitRoot m.fs dir := by
  unfold Cli.gitRoot
  simp only [h _]

/-- A file under a root is accepted when its normalized path leads back. -/
theorem checkFile_of_leadsBack {m' : Machine} (hm' : m'.fs.Lawful) {a : BuildIdentity} {path : Text} {input : FileInput}
    (hpath : input.path = a.normalizer.normalize path) (hcanonical : m'.fs.canonicalize path = some path)
    (hdigest : m'.fs.digest path = some input.digest) (hback : LeadsBack m' a path) :
    checkFile m' a input = .ok () ↔
      (outsideCheckoutRoots (a.normalizer.normalize path) = true → ¬ Foreign m' a path) := by
  have hforeign : foreignCheckout m'.fs (localizedPath a input.path) a.checkout =
      foreignCheckout m'.fs path a.checkout := by
    rw [hpath]
    exact foreignCheckout_congr hback hcanonical
  have hlocalized : m'.fs.digest (localizedPath a input.path) = some input.digest := by
    rw [hpath, hm'.digest_canonicalize _ _ hback, hdigest]
  rw [checkFile_eq_ok, hforeign, hpath]
  exact ⟨And.left, fun h => ⟨h, checkDigest_of_digest hm' (hpath ▸ hlocalized)⟩⟩

theorem checkHostFile_iff {m' : Machine} (hm' : m'.fs.Lawful) {a : BuildIdentity} {input : FileInput}
    (hdigest : m'.fs.digest input.path = some input.digest) :
    checkHostFile m' a input = .ok () ↔ ¬ Foreign m' a input.path :=
  checkHostFile_eq_ok.trans ⟨And.left, fun h => ⟨h, checkDigest_of_digest hm' hdigest⟩⟩

/-! ## Variables -/

/-- No two texts that are digested collide: the pins, the values of the
environment in both forms, and the widths. -/
structure DigestedAll (texts : Set Text) (m : Machine) (a : BuildIdentity) : Prop extends Digested texts m a where
  normalized : ∀ name value, a.envValue m.var name = some value → a.rootNormalizer.normalize value ∈ texts
  widths : ∀ value ∈ [ANY_DIAGNOSTIC_WIDTH, a.width], value ∈ texts

/-- What a variable is recorded as is told by its digest. -/
theorem valueDigest_envInput {texts : Set Text} {m : Machine} {a : BuildIdentity} {compile : Compile}
    (hd : DigestedAll texts m a) {leaked : List Text} (hleaked : ∀ token, token ∈ leaked ↔ Leaked m a compile token)
    {name text : Text} (htext : text ∈ texts) :
    (envInput m a leaked name).valueDigest = some (m.digestBytes text) ↔ RecordedAs m a compile name text := by
  unfold RecordedAs
  cases henv : a.envValue m.var name with
  | none =>
    have hnone : envInput m a leaked name = .capture m.digestBytes name none := by rw [envInput, henv]
    rw [hnone]
    exact iff_of_false (by rintro ⟨⟩) (by rintro ⟨_, ⟨⟩, -⟩)
  | some value =>
    have hvalue : value ∈ texts := hd.values name value henv
    have hnormalized : a.rootNormalizer.normalize value ∈ texts := hd.normalized name value henv
    simp only [Option.some.injEq, exists_eq_left']
    rcases envInput_of_value hleaked henv with ⟨hraw, heq⟩ | ⟨hraw, heq⟩
    · rw [heq]
      refine ⟨fun h => .inl ⟨hraw, (hd.injOn hvalue htext (Option.some.inj h)).symm⟩, ?_⟩
      rintro (⟨-, rfl⟩ | ⟨hnot, -⟩)
      · rfl
      · exact absurd hraw hnot
    · rw [heq]
      refine ⟨fun h => .inr ⟨hraw, (hd.injOn hnormalized htext (Option.some.inj h)).symm⟩, ?_⟩
      rintro (⟨hyes, -⟩ | ⟨-, rfl⟩)
      · exact absurd hyes hraw
      · rfl

/-- A variable with the same value is recorded alike. -/
theorem currentInput_envInput {m m' : Machine} {a : BuildIdentity} {leaked : List Text} {name : Text}
    (hdigest : m'.digestBytes = m.digestBytes) (hvar : m'.var name = m.var name) :
    currentInput m' a (envInput m a leaked name) = envInput m a leaked name := by
  have hvalue : a.envValue m'.var name = a.envValue m.var name := by
    unfold BuildIdentity.envValue
    rw [hvar]
  unfold currentInput
  rw [envInput_name, hvalue, hdigest]
  unfold envInput
  cases henv : a.envValue m.var name with
  | none => rfl
  | some value =>
    dsimp only
    split
    · rfl
    · rfl

theorem not_prefix_width : ¬ PIN_PREFIX <+: DIAGNOSTIC_WIDTH_INPUT := by decide

/-- What is recorded of a name the program does not read. -/
theorem recordedInput_cases {m : Machine} {a : BuildIdentity} {compile : Compile} {leaked names : List Text}
    {name : Text} {input : EnvInput} (hnot : name ∉ names)
    (h : recordedInput m a compile leaked names name = some input) :
    (∃ value, (name, value) ∈ a.pins ∧ input = .capture m.digestBytes name (some value)) ∨
      name = DIAGNOSTIC_WIDTH_INPUT ∧
        input = .capture m.digestBytes DIAGNOSTIC_WIDTH_INPUT (some (recordedWidth a compile)) := by
  rw [recordedInput, if_neg hnot, Option.or_eq_some_iff] at h
  rcases h with h | ⟨-, h⟩
  · obtain ⟨pin, hfind, rfl⟩ := Option.map_eq_some_iff.1 h
    have hname : pin.1 = name := by simpa using List.find?_some hfind
    have hmem : pin ∈ a.pins := (List.mem_filter.1 (List.mem_of_find?_eq_some hfind)).1
    exact .inl ⟨pin.2, hname ▸ hmem, by rw [hname]⟩
  · split at h
    · next hwidth => exact .inr ⟨hwidth, (Option.some.inj h).symm⟩
    · cases h

/-- The variables and pins of a candidate are accepted when those variables
that have a pin's name have its value. -/
theorem checkEnv_iff {texts : Set Text} {m m' : Machine} {a : BuildIdentity} {compile : Compile}
    (hd : DigestedAll texts m a) (hdigest : m'.digestBytes = m.digestBytes) {leaked names : List Text}
    (hleaked : ∀ token, token ∈ leaked ↔ Leaked m a compile token) (hvars : ∀ name ∈ names, m'.var name = m.var name) :
    (∀ input ∈ sortedBy EnvInput.name (envInputs m a compile leaked names),
        input.name ≠ DIAGNOSTIC_WIDTH_INPUT → checkEnv m' a input = .ok ()) ↔
      ∀ name ∈ names, PIN_PREFIX <+: name → ∃ value, a.pinValue name = some value ∧ RecordedAs m a compile name value := by
  constructor
  · intro h name hname hpre
    have hin : envInput m a leaked name ∈ sortedBy EnvInput.name (envInputs m a compile leaked names) := by
      rw [mem_env, envInput_name, recordedInput_of_mem hname]
    have hne : (envInput m a leaked name).name ≠ DIAGNOSTIC_WIDTH_INPUT := by
      rw [envInput_name]
      rintro rfl
      exact not_prefix_width hpre
    obtain ⟨value, hvalue, hrecorded⟩ := (checkEnv_pin (by rwa [envInput_name])).1 (h _ hin hne)
    rw [envInput_name] at hvalue
    have htext : value ∈ texts := hd.pins _ (BuildIdentity.pinValue_eq_some.1 hvalue)
    exact ⟨value, hvalue, (valueDigest_envInput hd hleaked htext).1 (hdigest ▸ hrecorded)⟩
  · intro h input hin hne
    rw [mem_env] at hin
    by_cases hname : input.name ∈ names
    · rw [recordedInput_of_mem hname, Option.some.injEq] at hin
      by_cases hpre : PIN_PREFIX <+: input.name
      · obtain ⟨value, hvalue, hrecorded⟩ := h _ hname hpre
        have htext : value ∈ texts := hd.pins _ (BuildIdentity.pinValue_eq_some.1 hvalue)
        refine (checkEnv_pin hpre).2 ⟨value, hvalue, ?_⟩
        rw [← hin, hdigest]
        exact (valueDigest_envInput hd hleaked htext).2 hrecorded
      · rw [checkEnv_named hpre, ← hin, currentInput_envInput hdigest (hvars _ hname)]
    · rcases recordedInput_cases hname hin with ⟨value, hpin, heq⟩ | ⟨hwidth, -⟩
      · obtain ⟨token, -, htoken⟩ := a.named _ hpin
        have hpre : PIN_PREFIX <+: input.name := ⟨token, htoken.symm⟩
        refine (checkEnv_pin hpre).2 ⟨value, BuildIdentity.pinValue_eq_some.2 hpin, ?_⟩
        rw [heq, hdigest]
        rfl
      · exact absurd hwidth hne

/-- The terminal's width is accepted, unless the program reads a variable of
that name with another value. -/
theorem widthMatches_iff {texts : Set Text} {m m' : Machine} {a : BuildIdentity} {compile : Compile}
    (hd : DigestedAll texts m a) (hdigest : m'.digestBytes = m.digestBytes) {captured : Captured} (inputs : Inputs)
    (depText : Text) (hleaked : ∀ token, token ∈ captured.leaked ↔ Leaked m a compile token) :
    widthMatches m' a (candidateOf m a compile captured inputs depText) = true ↔
      (DIAGNOSTIC_WIDTH_INPUT ∈ envDeps depText →
        ∃ value ∈ [ANY_DIAGNOSTIC_WIDTH, a.width], RecordedAs m a compile DIAGNOSTIC_WIDTH_INPUT value) := by
  have hfind : (candidateOf m a compile captured inputs depText).env.find?
      (fun input => input.name = DIAGNOSTIC_WIDTH_INPUT) =
      recordedInput m a compile captured.leaked (envDeps depText) DIAGNOSTIC_WIDTH_INPUT := by
    rw [← find?_envInputs]
    exact find?_sortedBy EnvInput.name _ _
  unfold widthMatches
  rw [hfind, hdigest]
  by_cases hname : DIAGNOSTIC_WIDTH_INPUT ∈ envDeps depText
  · rw [recordedInput_of_mem hname]
    simp only [List.any_eq_true, beq_iff_eq, hname, true_imp_iff]
    exact exists_congr fun value => and_congr_right fun hvalue => valueDigest_envInput hd hleaked (hd.widths value hvalue)
  · cases hrecorded : recordedInput m a compile captured.leaked (envDeps depText) DIAGNOSTIC_WIDTH_INPUT with
    | none =>
      exfalso
      rw [recordedInput, if_neg hname, if_pos rfl, Option.or_eq_none_iff] at hrecorded
      cases hrecorded.2
    | some input =>
      rcases recordedInput_cases hname hrecorded with ⟨value, hpin, -⟩ | ⟨-, heq⟩
      · obtain ⟨token, -, htoken⟩ := a.named _ hpin
        exact absurd ⟨token, htoken.symm⟩ not_prefix_width
      · have hwidth : recordedWidth a compile ∈ [ANY_DIAGNOSTIC_WIDTH, a.width] := by
          unfold recordedWidth
          split <;> simp
        refine iff_of_true ?_ fun h => absurd h hname
        rw [heq]
        exact List.any_eq_true.2 ⟨_, hwidth, beq_self_eq_true _⟩

/-! ## All of it -/

/-- The files of a candidate are accepted, and lead back, when each file that
was read resolves. -/
theorem checkFiles_iff {m m' : Machine} {a : BuildIdentity} {compile : Compile} (hm : m.fs.Lawful)
    (later : Later m m' a compile) {inputs : Inputs}
    (hfrom : inputs.From (m.world a.toIdentity compile.started) (compile.Reads m a))
    (hhas : ∀ path, compile.Reads m a path → inputs.Has (m.world a.toIdentity compile.started) path) :
    ((∀ input ∈ inputs.files, checkFile m' a input = .ok ()) ∧
        (∀ input ∈ inputs.hostFiles, checkHostFile m' a input = .ok ()) ∧
        ∀ path, compile.Reads m a path → StoredUnderRoot a.normalizer path → LeadsBack m' a path) ↔
      ∀ path, compile.Reads m a path → FileResolves m' a path := by
  have hkept : ∀ path d, compile.Reads m a path → m.fs.digest path = some d → m'.fs.digest path = some d :=
    fun path d hread hdigest => (later.files path hread).2.trans hdigest
  constructor
  · rintro ⟨hfiles, hhost, hback⟩ path hread
    by_cases hstored : StoredUnderRoot a.normalizer path
    · refine (fileResolves_of_stored hstored).2 ⟨hback path hread hstored, ?_⟩
      rcases hhas path hread with ⟨input, hin, hpath⟩ | ⟨input, hin, hpath⟩
      · -- the entry's own file is this one: both lie where the path leads
        obtain ⟨origin, horigin, hstored', hpath', hdigest⟩ := hfrom.files input hin
        have hsame : origin = path := by
          have hleads := hback origin horigin hstored'
          rw [LeadsBack, ← show input.path = a.normalizer.normalize origin from hpath', hpath] at hleads
          exact Option.some.inj (hleads.symm.trans (hback path hread hstored))
        subst hsame
        exact (checkFile_of_leadsBack later.lawful hpath (later.canonical hm horigin hdigest)
          (hkept _ _ horigin hdigest) (hback _ horigin hstored')).1 (hfiles input hin)
      · obtain ⟨origin, -, hnot, hpath', -⟩ := hfrom.hostFiles input hin
        rw [← hpath', hpath] at hnot
        exact absurd hstored hnot
    · refine (fileResolves_of_not_stored hstored).2 ?_
      rcases hhas path hread with ⟨input, hin, hpath⟩ | ⟨input, hin, hpath⟩
      · obtain ⟨origin, -, hstored', hpath', -⟩ := hfrom.files input hin
        have hnormalized : a.normalizer.normalize origin = a.normalizer.normalize path := hpath'.symm.trans hpath
        have horigin : StoredUnderRoot a.normalizer origin := hstored'
        rw [StoredUnderRoot, hnormalized] at horigin
        exact absurd horigin hstored
      · obtain ⟨origin, horigin, -, hpath', hdigest⟩ := hfrom.hostFiles input hin
        rw [← hpath] at hread ⊢
        rw [← hpath'] at horigin hdigest
        exact (checkHostFile_iff later.lawful (hkept _ _ horigin hdigest)).1 (hhost input hin)
  · intro h
    refine ⟨fun input hin => ?_, fun input hin => ?_, fun path hread hstored => ?_⟩
    · obtain ⟨path, hread, hstored, hpath, hdigest⟩ := hfrom.files input hin
      have hresolves := (fileResolves_of_stored hstored).1 (h path hread)
      exact (checkFile_of_leadsBack later.lawful hpath (later.canonical hm hread hdigest)
        (hkept _ _ hread hdigest) hresolves.1).2 hresolves.2
    · obtain ⟨path, hread, hnot, hpath, hdigest⟩ := hfrom.hostFiles input hin
      have hresolves := (fileResolves_of_not_stored hnot).1 (h path hread)
      rw [← hpath] at hread hdigest hresolves
      exact (checkHostFile_iff later.lawful (hkept _ _ hread hdigest)).2 hresolves
    · exact ((fileResolves_of_stored hstored).1 (h path hread)).1

/-- In one later state there is agreement exactly when each file resolves there
and no variable is taken for a synthetic input it is not. -/
theorem agrees_iff_resolves {texts : Set Text} {m m' : Machine} {a : BuildIdentity} {compile : Compile}
    {candidate : ActionCandidate} (hm : m.fs.Lawful) (hd : DigestedAll texts m a) (later : Later m m' a compile)
    (h : captureOutputs m a compile = .ok candidate) :
    Agrees m m' a compile candidate ↔ Resolves m m' a compile := by
  obtain ⟨captured, depText, inputs, hdep, hleaked, hinputs, rfl, hmanifest⟩ := captureOutputs_ok h
  have hreads : ∀ path, compile.Reads m a path ↔ (Tool.compiler compile.invocation depText compile.link).Reads
      (m.world a.toIdentity compile.started) path := fun path => by
    simp only [Compile.Reads, hdep, Option.some.injEq, exists_eq_left']
  have hreadsVar : ∀ name, ReadsVar m compile name ↔ name ∈ envDeps depText := fun name => by
    simp only [ReadsVar, hdep, Option.some.injEq, exists_eq_left']
  obtain ⟨hfrom, -⟩ := compilerInputs_from hinputs
  have hreadsFrom : inputs.From (m.world a.toIdentity compile.started) (compile.Reads m a) :=
    ⟨fun input hin => (hfrom.files input hin).imp fun path hp => ⟨(hreads path).2 hp.1, hp.2⟩,
      fun input hin => (hfrom.hostFiles input hin).imp fun path hp => ⟨(hreads path).2 hp.1, hp.2⟩⟩
  have hfiles := checkFiles_iff hm later hreadsFrom fun path hread =>
    (compilerInputs_ok hinputs ((hreads path).1 hread)).2
  have henv := checkEnv_iff hd later.digestBytes hleaked
    fun name hname => later.values name ((hreadsVar name).2 hname)
  have hwidth := widthMatches_iff hd later.digestBytes inputs depText hleaked
  rw [Agrees, validateCandidate_eq_ok]
  constructor
  · rintro ⟨⟨-, hw, he, hf, hh⟩, hback⟩
    exact ⟨hfiles.1 ⟨hf, hh, hback⟩, fun name hname => henv.1 he name ((hreadsVar name).1 hname),
      fun hname => hwidth.1 hw ((hreadsVar _).1 hname)⟩
  · rintro ⟨hf, hp, hw⟩
    obtain ⟨hf', hh, hback⟩ := hfiles.2 hf
    exact ⟨⟨later.actionKey ▸ hmanifest, hwidth.2 fun hname => hw ((hreadsVar _).2 hname),
      henv.2 fun name hname => hp name ((hreadsVar name).2 hname), hf', hh⟩, hback⟩

/-- Each file of a compile that was captured could be recorded. -/
theorem captureOutputs_recordable {m : Machine} {a : BuildIdentity} {compile : Compile} {candidate : ActionCandidate}
    (h : captureOutputs m a compile = .ok candidate) :
    ∀ path, compile.Reads m a path → Recordable (m.world a.toIdentity compile.started) path := by
  obtain ⟨_, depText, inputs, hdep, -, hinputs, -, -⟩ := captureOutputs_ok h
  rintro path ⟨depText', hdep', hread⟩
  obtain rfl : depText = depText' := Option.some.inj (hdep.symm.trans hdep')
  exact (compilerInputs_from hinputs).2 path hread

/-! ## In every later state -/

/-- The machine, where one path is none of any file's any more. -/
def Machine.without (m : Machine) (gone : Text) : Machine :=
  { m with fs := { m.fs with
    canonicalize := fun path => if path = gone then none else m.fs.canonicalize path
    digest := fun path => if path = gone then none else m.fs.digest path } }

/-- A path that leads elsewhere may go without anything that was recorded. -/
theorem Later.without {m m₁ : Machine} {a : BuildIdentity} {compile : Compile} (later : Later m m₁ a compile)
    {gone : Text} (hgone : m₁.fs.canonicalize gone ≠ some gone)
    (hread : ∀ path, compile.Reads m a path → m₁.fs.canonicalize path = some path) :
    Later m (m₁.without gone) a compile := by
  have hresolved : ∀ path resolved, m₁.fs.canonicalize path = some resolved → resolved ≠ gone := by
    rintro path resolved h rfl
    exact hgone (later.lawful.canonicalize_idem _ _ h)
  refine ⟨later.digestBytes, later.actionKey, ⟨?_, ?_, ?_, ?_⟩, fun path hpath => ?_, later.values⟩
  · intro path resolved h
    obtain ⟨-, h⟩ := Option.ite_none_left_eq_some.1 h
    exact Option.ite_none_left_eq_some.2 ⟨hresolved path resolved h, later.lawful.canonicalize_idem _ _ h⟩
  · intro path resolved h
    obtain ⟨hpath, h⟩ := Option.ite_none_left_eq_some.1 h
    show (if path = gone then none else m₁.fs.digest path) = if resolved = gone then none else m₁.fs.digest resolved
    rw [if_neg hpath, if_neg (hresolved path resolved h), later.lawful.digest_canonicalize _ _ h]
  · intro path d h
    obtain ⟨hpath, h⟩ := Option.ite_none_left_eq_some.1 h
    obtain ⟨resolved, hcanonical⟩ := later.lawful.canonicalize_of_digest _ _ h
    exact ⟨resolved, Option.ite_none_left_eq_some.2 ⟨hpath, hcanonical⟩⟩
  · intro path d h
    obtain ⟨-, h⟩ := Option.ite_none_left_eq_some.1 h
    exact later.lawful.symlinkMetadata_of_digest path d h
  · have hne : path ≠ gone := by
      rintro rfl
      exact hgone (hread path hpath)
    obtain ⟨hcanonical, hdigest⟩ := later.files path hpath
    exact ⟨(if_neg hne).trans hcanonical, (if_neg hne).trans hdigest⟩

section States

variable {m m₁ m' : Machine} {a : BuildIdentity} {compile : Compile} {path : Text}

/-- What is spelled back leads back, wherever nothing that was read has changed. -/
theorem fileResolves_iff (hcanonical : m'.fs.canonicalize path = some path) (hsame : SameCheckouts m₁ m')
    (hspelled : StoredUnderRoot a.normalizer path → SpelledBack a path) :
    FileResolves m' a path ↔ (MustBeOurs a path → ¬ InOtherCheckout m₁ a path) := by
  unfold MustBeOurs
  have hforeign : Foreign m' a path ↔ InOtherCheckout m₁ a path := by
    rw [foreign_iff hcanonical, InOtherCheckout, InOtherCheckout, hsame.gitRoot]
  by_cases hstored : StoredUnderRoot a.normalizer path
  · have hback : LeadsBack m' a path := by
      rw [LeadsBack, hspelled hstored, hcanonical]
    simp [fileResolves_of_stored hstored, hback, hforeign, hstored]
  · simp [fileResolves_of_not_stored hstored, hforeign, hstored]

/-- A path that leads back in all those states is spelled back. -/
theorem spelledBack_of_later (later : Later m m₁ a compile)
    (hread : ∀ path, compile.Reads m a path → m₁.fs.canonicalize path = some path)
    (hall : ∀ m', Later m m' a compile → SameCheckouts m₁ m' → LeadsBack m' a path) : SpelledBack a path := by
  by_contra hspelled
  have hback := hall m₁ later fun _ => rfl
  have hgone : m₁.fs.canonicalize (localizedPath a (a.normalizer.normalize path)) ≠
      some (localizedPath a (a.normalizer.normalize path)) := by
    rw [show m₁.fs.canonicalize _ = some path from hback]
    exact fun heq => hspelled (Option.some.inj heq).symm
  have hlost := hall _ (later.without hgone hread) fun _ => rfl
  rw [LeadsBack, Machine.without] at hlost
  simp at hlost

end States

/-- **Capture and validation agree, but for three kinds of input.** From a later
state on, while nothing that was recorded changes and no checkout comes or
goes, the candidate is accepted, and every path it normalized leads to the file
that was read, exactly when all of it is resolvable. At once it is as far as
the host files whose normalized path begins with a root's text, and paths that
keep their text are spelled back. -/
theorem captureOutputs_agrees_iff {texts : Set Text} {m : Machine} {a : BuildIdentity} {compile : Compile}
    {candidate : ActionCandidate} (hm : m.fs.Lawful) (hd : DigestedAll texts m a)
    (h : captureOutputs m a compile = .ok candidate) :
    (∀ m₁, Later m m₁ a compile →
      ((∀ m', Later m m' a compile → SameCheckouts m₁ m' → Agrees m m' a compile candidate) ↔
        Resolvable m m₁ a compile)) ∧
    ((∀ path, compile.Reads m a path → MustBeOurs a path → ¬ InOtherCheckout m a path) ↔
      ∀ path, compile.Reads m a path → ¬ StoredUnderRoot a.normalizer path →
        outsideCheckoutRoots (a.normalizer.normalize path) = false → ¬ InOtherCheckout m a path) ∧
    (a.normalizer.Built → ∀ path, isAbsolute path = true → a.normalizer.KeepsText path → SpelledBack a path) := by
  have hrecordable := captureOutputs_recordable h
  have hcanonical : ∀ m', Later m m' a compile → ∀ path, compile.Reads m a path →
      m'.fs.canonicalize path = some path := by
    intro m' later path hread
    obtain ⟨digest, hdigest⟩ := (hrecordable path hread).digested
    exact later.canonical hm hread hdigest
  refine ⟨fun m₁ later => ⟨fun hall => ?_, fun hr m' later' hsame => ?_⟩,
    ⟨fun hours path hread hnot _ => hours path hread (.inl hnot), fun hours path hread hmust => ?_⟩,
    fun hbuilt path => spelledBack_of_keepsText hbuilt⟩
  · have hresolves := (agrees_iff_resolves hm hd later h).1 (hall m₁ later fun _ => rfl)
    have hspelled : ∀ path, compile.Reads m a path → StoredUnderRoot a.normalizer path → SpelledBack a path :=
      fun path hread hstored => spelledBack_of_later later (hcanonical m₁ later) fun m' later' hsame =>
        (hall m' later' hsame).2 path hread hstored
    refine ⟨hspelled, fun path hread => ?_, hresolves.pins, hresolves.width⟩
    exact (fileResolves_iff (hcanonical m₁ later path hread) (fun _ => rfl) (hspelled path hread)).1
      (hresolves.files path hread)
  · refine (agrees_iff_resolves hm hd later' h).2 ⟨fun path hread => ?_, hr.pins, hr.width⟩
    exact (fileResolves_iff (hcanonical m' later' path hread) hsame (hr.spelled path hread)).2 (hr.ours path hread)
  · -- capture has asked of a file under no root already
    cases houtside : outsideCheckoutRoots (a.normalizer.normalize path) with
    | true =>
      rw [← foreign_iff (hcanonical m (.refl hm a compile) path hread), Foreign, Bool.not_eq_true]
      exact (hrecordable path hread).ours houtside
    | false =>
      rcases hmust with hnot | hout
      · exact hours path hread hnot houtside
      · rw [houtside] at hout
        cases hout

/-! ## A checkout beside the checkout

The crate of `/w/one` is compiled against a library of `/w/one-b`, another
checkout. -/

def siblingFiles : List Text :=
  ["/w/one/src/lib.rs", "/w/one-b/libx.rlib", "/w/one/target/debug/deps/d.d",
    "/w/one/target/debug/deps/libd.rlib"].map String.toList

def siblingDirectories : List Text :=
  ["/", "/w", "/w/one", "/w/one/src", "/w/one/.git", "/w/one-b", "/w/one-b/.git"].map String.toList

/-- The texts digested. -/
def siblingTexts : List Text := ["/w/one", "/w/one/target", "/h", "*", "absent"].map String.toList

def siblingMachine : Machine where
  fs := .still siblingFiles siblingDirectories fun _ => hex 'a'
  var := fun name => if name = "HOME".toList then some "/h".toList else none
  currentDir := some "/w/one".toList
  digestBytes := fun text => hex (Char.ofNat (48 + siblingTexts.idxOf text))
  actionKey := fun _ _ _ _ => hex 'b'
  fuel := 1

def siblingIdentity : BuildIdentity :=
  identityIn siblingMachine.toProcess "/w/one".toList
    { outDir := "/w/one/target/debug/deps".toList, source := some "src/lib.rs".toList, staticKey := hex 'c',
      virtualEnv := [], diagnosticWidth := none }

def siblingCompile : Compile where
  invocation := ⟨.library, ["src/lib.rs".toList, "/w/one-b/libx.rlib".toList], [], [], false⟩
  crateName := "d".toList
  outDir := "/w/one/target/debug/deps".toList
  names := ["d.d".toList, "libd.rlib".toList]
  procMacros := []
  stdout := []
  stderr := []
  started := 10000000000
  createdMs := 0
  link := none
  read := fun path =>
    if path = "/w/one/target/debug/deps/d.d".toList then some (utf8 "d: src/lib.rs\n".toList) else some []
  executable := fun _ => some false
  digestOutput := fun _ => hex 'd'
  transformDepInfo := id
  transformStream := id
  checkBundledMembers := fun _ => .ok ()

def siblingCandidate : ActionCandidate where
  protocol := 6
  staticKey := hex 'c'
  actionKey := hex 'b'
  crateName := "d".toList
  createdMs := 0
  files := [⟨"$WORKSPACE/src/lib.rs".toList, hex 'a'⟩]
  hostFiles := [⟨"/w/one-b/libx.rlib".toList, hex 'a'⟩]
  env := [⟨DIAGNOSTIC_WIDTH_INPUT, some (hex '3'), false⟩]
  artifacts := [⟨"d.d".toList, hex 'd', false⟩, ⟨"libd.rlib".toList, hex 'd', false⟩]
  stdout := ⟨hex 'd', 0⟩
  stderr := ⟨hex 'd', 0⟩
  procMacros := []

theorem captureOutputs_sibling :
    captureOutputs siblingMachine siblingIdentity siblingCompile = .ok siblingCandidate := by
  decide +kernel

theorem validateCandidate_sibling : validateCandidate siblingMachine siblingIdentity siblingCandidate =
    .error "input changed: /w/one-b/libx.rlib belongs to another checkout" := by
  decide +kernel

theorem lawful_sibling : siblingMachine.fs.Lawful := FileSystem.lawful_still

/-- What was just captured is refused. -/
theorem siblingCandidate_not_agrees :
    ¬ ∀ candidate m', captureOutputs siblingMachine siblingIdentity siblingCompile = .ok candidate →
      Later siblingMachine m' siblingIdentity siblingCompile →
        Agrees siblingMachine m' siblingIdentity siblingCompile candidate := by
  intro h
  have hagrees := h siblingCandidate siblingMachine captureOutputs_sibling (.refl lawful_sibling _ _)
  have hok := hagrees.1
  rw [validateCandidate_sibling] at hok
  cases hok

theorem digested_sibling : DigestedAll {text | text ∈ siblingTexts} siblingMachine siblingIdentity := by
  have hvalue : ∀ name value, siblingIdentity.envValue siblingMachine.var name = some value → value = "/h".toList := by
    intro name value h
    have h : (if name = "HOME".toList then some "/h".toList else none) = some value := h
    split at h
    · exact (Option.some.inj h).symm
    · cases h
  refine ⟨⟨?_, ?_, ?_⟩, ?_, ?_⟩
  · exact fun x hx y hy => (by decide +kernel : ∀ x ∈ siblingTexts, ∀ y ∈ siblingTexts,
      siblingMachine.digestBytes x = siblingMachine.digestBytes y → x = y) x hx y hy
  · exact (by decide +kernel : ∀ pin ∈ siblingIdentity.pins, pin.2 ∈ siblingTexts)
  · intro name value h
    rw [hvalue name value h]
    exact (by decide : "/h".toList ∈ siblingTexts)
  · intro name value h
    rw [hvalue name value h]
    exact (by decide +kernel : siblingIdentity.rootNormalizer.normalize "/h".toList ∈ siblingTexts)
  · exact (by decide +kernel : ∀ value ∈ [ANY_DIAGNOSTIC_WIDTH, siblingIdentity.width], value ∈ siblingTexts)

theorem captureOutputs_agrees_iff_sibling :
    (∀ m', Later siblingMachine m' siblingIdentity siblingCompile → SameCheckouts siblingMachine m' →
        Agrees siblingMachine m' siblingIdentity siblingCompile siblingCandidate) ↔
      Resolvable siblingMachine siblingMachine siblingIdentity siblingCompile :=
  (captureOutputs_agrees_iff lawful_sibling digested_sibling captureOutputs_sibling).1 _ (.refl lawful_sibling _ _)

end Bellows.Cli
