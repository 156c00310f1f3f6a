/-
An output that embeds a root is restored only where the root is the same,
but for one confusion.

A pin is an environment input with a name that no environment variable should
have. The program's own variables are recorded first, so one that has it all
the same takes the pin's place, with whatever value it has
(`captureOutputs_leaksPinned_iff`).
-/
import Mathlib.Data.Set.Function
import Bellows.Cli.CandidateFacts
import Bellows.Cli.FileTree

namespace Bellows.Cli

open Text Bellows.Core Checked KeyedSort

/-- An output that is scanned as it is: not the dep-info, and none of the
linker's companions. -/
def Scanned (m : Machine) (compile : Compile) (name : Text) (bytes : List UInt8) : Prop :=
  name ∈ compile.names ∧ isDepInfo name = false ∧ programDatabase compile name = false ∧
    compile.output m name = some bytes

/-- A spelling of the root stands in a scanned output. -/
def Embeds (m : Machine) (a : BuildIdentity) (compile : Compile) (token : Text) : Prop :=
  ∃ name bytes, Scanned m compile name bytes ∧
    ∃ spelling ∈ a.rootNormalizer.spellings token, utf8 spelling <:+: bytes

/-- The candidate carries the root's pin, and no identity for which the root
is another accepts it. `texts` are the texts that are ever digested. -/
def PinnedTo (texts : Set Text) (m : Machine) (a : BuildIdentity) (candidate : ActionCandidate) (token : Text) : Prop :=
  ∃ value, a.pinValue (pinName token) = some value ∧
    EnvInput.capture m.digestBytes (pinName token) (some value) ∈ candidate.env ∧
    ∀ (m' : Machine) (b : BuildIdentity), m'.digestBytes = m.digestBytes →
      (∀ other, b.pinValue (pinName token) = some other → other ∈ texts) →
      b.pinValue (pinName token) ≠ some value → validateCandidate m' b candidate ≠ .ok ()

/-- Every root that the outputs embed is pinned. -/
def LeaksPinned (texts : Set Text) (m : Machine) (a : BuildIdentity) (compile : Compile)
    (candidate : ActionCandidate) : Prop :=
  ∀ token ∈ scannedRoots, Embeds m a compile token → PinnedTo texts m a candidate token

/-- No two texts that are digested collide; the pins and the environment's
values are among them. -/
structure Digested (texts : Set Text) (m : Machine) (a : BuildIdentity) : Prop where
  injOn : Set.InjOn m.digestBytes texts
  pins : ∀ pin ∈ a.pins, pin.2 ∈ texts
  values : ∀ name value, a.envValue m.var name = some value → value ∈ texts

/-- A normalized value names a root that leaked. -/
def NamesLeaked (m : Machine) (a : BuildIdentity) (compile : Compile) (normalized : Text) : Prop :=
  ∃ token, Leaked m a compile token ∧ (token <:+: normalized ∨ token = TARGET ∧ PROFILE <:+: normalized)

/-- The variable of that name is recorded with the pin's own value. -/
def GivesPin (m : Machine) (a : BuildIdentity) (compile : Compile) (name : Text) : Prop :=
  ∃ value, a.pinValue name = some value ∧ a.envValue m.var name = some value ∧
    (a.rootNormalizer.normalize value = value ∨ NamesLeaked m a compile (a.rootNormalizer.normalize value))

/-- The program reads an environment variable that has the name of the root's
pin, and not its value. -/
def Shadowed (m : Machine) (a : BuildIdentity) (compile : Compile) (token : Text) : Prop :=
  ReadsVar m compile (pinName token) ∧ ¬ GivesPin m a compile (pinName token)

/-! ## What is found -/

theorem mem_scannersOf {a : BuildIdentity} {token : Text} {scanner : Scanner} :
    (token, scanner) ∈ scannersOf a ↔
      token ∈ scannedRoots ∧ scanner = Scanner.new (a.rootNormalizer.spellings token) := by
  constructor
  · intro h
    obtain ⟨root, hroot, heq⟩ := List.mem_map.1 h
    obtain ⟨rfl, rfl⟩ := Prod.mk.inj heq
    exact ⟨hroot, rfl⟩
  · rintro ⟨hroot, rfl⟩
    exact List.mem_map_of_mem hroot

/-- A root that an output embeds leaks. -/
theorem Embeds.leaked {m : Machine} {a : BuildIdentity} {compile : Compile} {token : Text}
    (h : Embeds m a compile token) (htoken : token ∈ scannedRoots) : Leaked m a compile token := by
  obtain ⟨name, bytes, ⟨hname, hdep, hdatabase, hbytes⟩, spelling, hspelling, hin⟩ := h
  refine ⟨name, hname, hdep, bytes, hbytes, _, mem_scannersOf.2 ⟨htoken, rfl⟩, ?_⟩
  rw [leaksIn, hdatabase, if_neg Bool.false_ne_true]
  exact Scanner.leaks_of_infix hspelling hin

/-- It has a spelling, and so a pin. -/
theorem Embeds.pinned {m : Machine} {a : BuildIdentity} {compile : Compile} {token : Text}
    (h : Embeds m a compile token) (htoken : token ∈ scannedRoots) :
    ∃ value, (pinName token, value) ∈ a.pins := by
  obtain ⟨-, -, -, spelling, hspelling, -⟩ := h
  obtain ⟨pin, hpin, hname⟩ := List.mem_map.1 (a.pinned token htoken (List.ne_nil_of_mem hspelling))
  exact ⟨pin.2, hname ▸ hpin⟩

theorem namesLeakedRoot_eq_true {m : Machine} {a : BuildIdentity} {compile : Compile} {leaked : List Text}
    (h : ∀ token, token ∈ leaked ↔ Leaked m a compile token) (normalized : Text) :
    namesLeakedRoot leaked normalized = true ↔ NamesLeaked m a compile normalized := by
  simp only [namesLeakedRoot, NamesLeaked, List.any_eq_true, h, Bool.or_eq_true, Bool.and_eq_true, beq_iff_eq,
    decide_eq_true_eq]

theorem pinName_ne_width {token : Text} (h : token ∈ scannedRoots) : pinName token ≠ DIAGNOSTIC_WIDTH_INPUT :=
  (by decide : ∀ token ∈ scannedRoots, pinName token ≠ DIAGNOSTIC_WIDTH_INPUT) token h

/-! ## What is recorded -/

/-- How a variable that is set is recorded. -/
theorem envInput_of_value {m : Machine} {a : BuildIdentity} {compile : Compile} {leaked : List Text}
    (hleaked : ∀ token, token ∈ leaked ↔ Leaked m a compile token) {name value : Text}
    (h : a.envValue m.var name = some value) :
    (a.rootNormalizer.normalize value = value ∨ NamesLeaked m a compile (a.rootNormalizer.normalize value)) ∧
        envInput m a leaked name = .capture m.digestBytes name (some value) ∨
      ¬ (a.rootNormalizer.normalize value = value ∨ NamesLeaked m a compile (a.rootNormalizer.normalize value)) ∧
        envInput m a leaked name = .captureNormalized m.digestBytes name (a.rootNormalizer.normalize value) := by
  rw [← namesLeakedRoot_eq_true hleaked]
  unfold envInput
  rw [h]
  dsimp only
  by_cases hraw : a.rootNormalizer.normalize value = value ∨
      namesLeakedRoot leaked (a.rootNormalizer.normalize value) = true
  · refine .inl ⟨hraw, if_neg ?_⟩
    rcases hraw with h | h <;> simp [h]
  · refine .inr ⟨hraw, if_pos ?_⟩
    simpa only [not_or, Bool.not_eq_true, Bool.and_eq_true, decide_eq_true_eq, Bool.not_eq_true'] using hraw

/-- A variable is recorded as a pin would be when it has the pin's value, and
is not normalized. -/
theorem envInput_eq_capture {texts : Set Text} {m : Machine} {a : BuildIdentity} {compile : Compile}
    (hd : Digested texts m a) {leaked : List Text} (hleaked : ∀ token, token ∈ leaked ↔ Leaked m a compile token)
    {name value : Text} (hvalue : value ∈ texts) :
    envInput m a leaked name = .capture m.digestBytes name (some value) ↔
      a.envValue m.var name = some value ∧
        (a.rootNormalizer.normalize value = value ∨ NamesLeaked m a compile (a.rootNormalizer.normalize value)) := by
  cases henv : a.envValue m.var name with
  | none =>
    have hnone : envInput m a leaked name = .capture m.digestBytes name none := by rw [envInput, henv]
    rw [hnone]
    exact iff_of_false (by rintro ⟨⟩) (by rintro ⟨⟨⟩, -⟩)
  | some read =>
    rw [Option.some.injEq]
    rcases envInput_of_value hleaked henv with ⟨hraw, heq⟩ | ⟨hraw, heq⟩
    · rw [heq]
      constructor
      · intro h
        have hdigest : m.digestBytes read = m.digestBytes value := Option.some.inj (congrArg EnvInput.valueDigest h)
        obtain rfl : read = value := hd.injOn (hd.values name read henv) hvalue hdigest
        exact ⟨rfl, hraw⟩
      · rintro ⟨rfl, -⟩
        rfl
    · rw [heq]
      refine ⟨fun h => absurd (congrArg EnvInput.normalized h) (by rintro ⟨⟩), ?_⟩
      rintro ⟨rfl, hor⟩
      exact absurd hor hraw

/-! ## What is accepted -/

/-- Whoever accepts a candidate has the value it is pinned to. -/
theorem pinValue_of_validateCandidate {m : Machine} {b : BuildIdentity} {candidate : ActionCandidate}
    {token value : Text} {texts : Set Text} (hinj : Set.InjOn m.digestBytes texts) (hvalue : value ∈ texts)
    (hother : ∀ other, b.pinValue (pinName token) = some other → other ∈ texts)
    (hpin : EnvInput.capture m.digestBytes (pinName token) (some value) ∈ candidate.env)
    (hname : pinName token ≠ DIAGNOSTIC_WIDTH_INPUT) (h : validateCandidate m b candidate = .ok ()) :
    b.pinValue (pinName token) = some value := by
  obtain ⟨other, hb, hdigest⟩ := (checkEnv_pin (List.prefix_append _ _)).1 ((validateCandidate_eq_ok.1 h).2.2.1 _ hpin hname)
  rw [EnvInput.capture_name] at hb
  have heq : value = other := hinj hvalue (hother other hb) (Option.some.inj hdigest)
  rw [hb, heq]

/-- **Leaked roots are pinned, but for the shadowed ones.** A candidate is
pinned to every root its outputs embed exactly when the program reads no
variable with the name of such a root's pin, unless it gives the pin. -/
theorem captureOutputs_leaksPinned_iff {texts : Set Text} {m : Machine} {a : BuildIdentity} {compile : Compile}
    {candidate : ActionCandidate} (hd : Digested texts m a) (h : captureOutputs m a compile = .ok candidate) :
    LeaksPinned texts m a compile candidate ↔
      ∀ token ∈ scannedRoots, Embeds m a compile token → ¬ Shadowed m a compile token := by
  obtain ⟨captured, depText, inputs, hdep, hleaked, -, rfl, -⟩ := captureOutputs_ok h
  refine forall_congr' fun token => imp_congr_right fun htoken => imp_congr_right fun hembeds => ?_
  obtain ⟨value, hpin⟩ := hembeds.pinned htoken
  have hvalue : value ∈ texts := hd.pins _ hpin
  have hpinValue : a.pinValue (pinName token) = some value := BuildIdentity.pinValue_eq_some.2 hpin
  have hgives : GivesPin m a compile (pinName token) ↔
      envInput m a captured.leaked (pinName token) = .capture m.digestBytes (pinName token) (some value) := by
    rw [envInput_eq_capture hd hleaked hvalue, GivesPin]
    simp only [hpinValue, Option.some.injEq]
    exact ⟨fun ⟨v, hv, hr⟩ => hv ▸ hr, fun hr => ⟨value, rfl, hr⟩⟩
  have hmem : EnvInput.capture m.digestBytes (pinName token) (some value) ∈
      (candidateOf m a compile captured inputs depText).env ↔ ¬ Shadowed m a compile token := by
    refine mem_env.trans ?_
    show recordedInput m a compile captured.leaked (envDeps depText) (pinName token) = some _ ↔ _
    simp only [Shadowed, ReadsVar, hdep, Option.some.injEq, exists_eq_left']
    by_cases hread : pinName token ∈ envDeps depText
    · rw [recordedInput_of_mem hread, hgives, Option.some.injEq, not_and_not_right]
      exact ⟨fun heq _ => heq, fun himp => himp hread⟩
    · have hleakedPin := mem_leakedPins ((hleaked token).2 (hembeds.leaked htoken)) hpin
      exact ⟨fun _ hs => hread hs.1, fun _ => recordedInput_of_pin hread hleakedPin⟩
  rw [← hmem]
  constructor
  · rintro ⟨other, hother, hin, -⟩
    rw [hpinValue] at hother
    exact Option.some.inj hother ▸ hin
  · intro hin
    refine ⟨value, hpinValue, hin, fun m' b hm hb hne hok => hne ?_⟩
    rw [← hm] at hin
    exact pinValue_of_validateCandidate (hm ▸ hd.injOn) hvalue hb hin (pinName_ne_width htoken) hok

/-! ## A variable named like a pin

Two checkouts of one crate, `/w/one` and `/w/two`. The program embeds its
directory, and reads `@bellows:root:$WORKSPACE`, which is set to `/w/two`. -/

def hex (c : Char) : Text := List.replicate 64 c

def checkoutFiles : List Text :=
  ["/w/one/src/lib.rs", "/w/two/src/lib.rs", "/w/one/target/debug/deps/d.d",
    "/w/one/target/debug/deps/libd.rlib"].map String.toList

def checkoutDirectories : List Text :=
  ["/", "/w", "/w/one", "/w/one/src", "/w/one/.git", "/w/two", "/w/two/src", "/w/two/.git"].map String.toList

def checkoutDigest (text : Text) : Text :=
  if text = "/w/one".toList then hex '1' else if text = "/w/two".toList then hex '2'
  else if text = "/w/one/target".toList then hex '3' else hex '0'

def checkoutMachine (workspace : Text) : Machine where
  fs := .still checkoutFiles checkoutDirectories fun _ => hex 'a'
  var := fun name =>
    if name = pinName WORKSPACE then some "/w/two".toList
    else if name = "HOME".toList then some "/h".toList else none
  currentDir := some workspace
  digestBytes := checkoutDigest
  actionKey := fun _ _ _ _ => hex 'b'
  fuel := 1

def checkoutIdentity (workspace : Text) : BuildIdentity :=
  identityIn (checkoutMachine workspace).toProcess workspace
    { outDir := join workspace "target/debug/deps".toList, source := some "src/lib.rs".toList,
      staticKey := hex 'c', virtualEnv := [], diagnosticWidth := none }

def embeddingCompile : Compile where
  invocation := ⟨.library, ["src/lib.rs".toList], [], [], false⟩
  crateName := "d".toList
  outDir := "/w/one/target/debug/deps".toList
  names := ["d.d".toList, "libd.rlib".toList]
  procMacros := []
  stdout := []
  stderr := []
  started := 10000000000
  createdMs := 0
  link := none
  read := fun path =>
    if path = "/w/one/target/debug/deps/d.d".toList then
      some (utf8 "d: src/lib.rs\n\n# env-dep:@bellows:root:$WORKSPACE=/w/two\n".toList)
    else some (utf8 "in /w/one/src".toList)
  executable := fun _ => some false
  digestOutput := fun _ => hex 'd'
  transformDepInfo := id
  transformStream := id
  checkBundledMembers := fun _ => .ok ()

def shadowedCandidate : ActionCandidate where
  protocol := 6
  staticKey := hex 'c'
  actionKey := hex 'b'
  crateName := "d".toList
  createdMs := 0
  files := [⟨"$WORKSPACE/src/lib.rs".toList, hex 'a'⟩]
  hostFiles := []
  env := [⟨DIAGNOSTIC_WIDTH_INPUT, some (hex '0'), false⟩, ⟨pinName WORKSPACE, some (hex '2'), false⟩]
  artifacts := [⟨"d.d".toList, hex 'd', false⟩, ⟨"libd.rlib".toList, hex 'd', false⟩]
  stdout := ⟨hex 'd', 0⟩
  stderr := ⟨hex 'd', 0⟩
  procMacros := []

theorem digestBytes_checkoutMachine (workspace : Text) :
    (checkoutMachine workspace).digestBytes = checkoutDigest := rfl

theorem captureOutputs_shadowed :
    captureOutputs (checkoutMachine "/w/one".toList) (checkoutIdentity "/w/one".toList) embeddingCompile =
      .ok shadowedCandidate := by
  decide +kernel

theorem validateCandidate_shadowed :
    validateCandidate (checkoutMachine "/w/two".toList) (checkoutIdentity "/w/two".toList) shadowedCandidate =
      .ok () := by
  decide +kernel

/-- The texts digested in the two checkouts. -/
def checkoutTexts : List Text := ["/w/one", "/w/two", "/w/one/target", "/h"].map String.toList

theorem embeds_workspace :
    Embeds (checkoutMachine "/w/one".toList) (checkoutIdentity "/w/one".toList) embeddingCompile WORKSPACE := by
  have hspelling : "/w/one".toList ∈ (checkoutIdentity "/w/one".toList).rootNormalizer.spellings WORKSPACE := by
    decide +kernel
  have hbytes : embeddingCompile.output (checkoutMachine "/w/one".toList) "libd.rlib".toList =
      some (utf8 "in /w/one/src".toList) := by
    decide +kernel
  have hin : utf8 "/w/one".toList <:+: utf8 "in /w/one/src".toList := by decide +kernel
  exact ⟨"libd.rlib".toList, _, ⟨by decide, by decide, by decide, hbytes⟩, _, hspelling, hin⟩

/-- What embeds `/w/one` is accepted in `/w/two`. -/
theorem shadowedCandidate_not_leaksPinned :
    ¬ ∀ candidate, captureOutputs (checkoutMachine "/w/one".toList) (checkoutIdentity "/w/one".toList)
        embeddingCompile = .ok candidate →
      LeaksPinned {text | text ∈ checkoutTexts} (checkoutMachine "/w/one".toList) (checkoutIdentity "/w/one".toList)
        embeddingCompile candidate := by
  intro h
  obtain ⟨value, hvalue, -, hrejects⟩ :=
    h shadowedCandidate captureOutputs_shadowed WORKSPACE (by decide) embeds_workspace
  have hone : (checkoutIdentity "/w/one".toList).pinValue (pinName WORKSPACE) = some "/w/one".toList := by
    decide +kernel
  have htwo : (checkoutIdentity "/w/two".toList).pinValue (pinName WORKSPACE) = some "/w/two".toList := by
    decide +kernel
  have hdigest := (digestBytes_checkoutMachine "/w/two".toList).trans (digestBytes_checkoutMachine "/w/one".toList).symm
  refine hrejects (checkoutMachine "/w/two".toList) (checkoutIdentity "/w/two".toList) hdigest ?_ ?_
    validateCandidate_shadowed
  · intro other hother
    rw [htwo] at hother
    exact Option.some.inj hother ▸ (by decide : "/w/two".toList ∈ checkoutTexts)
  · rw [← hvalue, hone, htwo]
    decide

theorem checkout_digested :
    Digested {text | text ∈ checkoutTexts} (checkoutMachine "/w/one".toList) (checkoutIdentity "/w/one".toList) where
  injOn := fun x hx y hy => (by decide +kernel : ∀ x ∈ checkoutTexts, ∀ y ∈ checkoutTexts,
    (checkoutMachine "/w/one".toList).digestBytes x = (checkoutMachine "/w/one".toList).digestBytes y → x = y) x hx y hy
  pins := (by decide +kernel : ∀ pin ∈ (checkoutIdentity "/w/one".toList).pins, pin.2 ∈ checkoutTexts)
  values := by
    intro name value h
    have h : (if name = pinName WORKSPACE then some "/w/two".toList
      else if name = "HOME".toList then some "/h".toList else none) = some value := h
    show value ∈ checkoutTexts
    split at h
    · exact Option.some.inj h ▸ (by decide)
    · split at h
      · exact Option.some.inj h ▸ (by decide)
      · cases h

theorem captureOutputs_leaksPinned_iff_shadowed :
    LeaksPinned {text | text ∈ checkoutTexts} (checkoutMachine "/w/one".toList) (checkoutIdentity "/w/one".toList)
        embeddingCompile shadowedCandidate ↔
      ∀ token ∈ scannedRoots,
        Embeds (checkoutMachine "/w/one".toList) (checkoutIdentity "/w/one".toList) embeddingCompile token →
          ¬ Shadowed (checkoutMachine "/w/one".toList) (checkoutIdentity "/w/one".toList) embeddingCompile token :=
  captureOutputs_leaksPinned_iff checkout_digested captureOutputs_shadowed

end Bellows.Cli
