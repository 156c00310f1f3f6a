/-
Why a compile was not cached (`remember_identity`): what of its identity has
changed since the most similar of the last ones.

Of an identity the digests of its components are kept, under their names. They
tell all that the static key does, but for the order of the explicit inputs, so
that a changed key is explained (`fingerprintChanges_eq_nil_iff`).
-/
import Bellows.Cli.StaticKey
import Bellows.Lib.Recent

namespace Bellows.Cli.Diagnostics

open Text Bellows.Core Checked KeyedSort

/-- `Fingerprint`; the components are sorted by name. -/
structure Fingerprint where
  key : Text
  components : List (Text × Text)
  deriving DecidableEq, Repr

/-- `BTreeMap::get` -/
def get (components : List (Text × Text)) (name : Text) : Option Text :=
  (components.find? fun entry => entry.1 = name).map (·.2)

/-! ## Components -/

/-- The flag takes the next argument as its value. -/
def takesNext (arg next : Text) : Bool :=
  if arg == "-C".toList || arg == "-L".toList then true
  else !"-C".toList.isPrefixOf arg && !"-L".toList.isPrefixOf arg && arg.head? == some '-' && !arg.contains '=' &&
    next.head? != some '-' && !endsWith next ".rs".toList

/-- What the flag and its value are counted under, and the value. -/
def labelled (arg value : Text) : Text × Text :=
  if arg = "-C".toList ∨ arg = "-L".toList then
    ("argument ".toList ++ arg ++ ' ' :: value.takeWhile (· != '='), value)
  else ("argument ".toList ++ arg, value)

/-- An argument that is by itself. -/
def labelledAlone (arg : Text) : Text × Text :=
  if arg = "-C".toList ∨ arg = "-L".toList then labelled arg []
  else if "-C".toList.isPrefixOf arg || "-L".toList.isPrefixOf arg then
    ("argument ".toList ++ arg.take 2 ++ ' ' :: (arg.drop 2).takeWhile (· != '='), arg.drop 2)
  else if arg.head? = some '-' then
    match splitOnce ['='] arg with
    | some (name, value) => ("argument ".toList ++ name, value)
    | none => ("argument ".toList ++ arg, [])
  else ("source argument".toList, arg)

/-- The labels and values, in the order of the arguments. -/
def argumentGroups : List Text → List (Text × Text)
  | [] => []
  | [arg] => [labelledAlone arg]
  | arg :: next :: rest =>
    if takesNext arg next then labelled arg next :: argumentGroups rest
    else labelledAlone arg :: argumentGroups (next :: rest)

/-- `argument_components`: of every label the digest of its values. -/
def argumentComponents (digest : List UInt8 → Text) (args : List Text) : List (Text × Text) :=
  let groups := argumentGroups args
  (sortedBy id (groups.map (·.1))).map fun label =>
    (label, digest (Json.array jsonString ((groups.filter fun group => group.1 = label).map (·.2))))

/-- The linker's name, where a program on `PATH` is the linker. -/
def linkerProgram : PathUse → Option Text
  | .linker program => some program
  | _ => none

/-- The components in the order they are inserted. -/
def componentList (digest : List UInt8 → Text) (linker : Option Text) (parts : StaticParts) : List (Text × Text) :=
  argumentComponents digest parts.args ++
    [("argument order".toList, digest (Json.array jsonString parts.args)),
      ("compiler version changed".toList, digest parts.compiler),
      ("protocol changed".toList, digest (utf8 (toString PROTOCOL_VERSION).toList)),
      ("dependency parser changed".toList, digest (utf8 DEP_INFO_FORMAT)),
      ("output kind changed".toList, digest (utf8 parts.kind.name.toList))] ++
    parts.environment.map (fun entry => ("environment changed: ".toList ++ entry.1, digest (utf8 entry.2))) ++
    (linker.toList.zip parts.linkerOnPath.toList).map (fun entry =>
      ("linker on PATH changed: ".toList ++ entry.1, digest (utf8 entry.2))) ++
    parts.inputs.map fun input => ("explicit input changed: ".toList ++ input.1, input.2)

/-- The fingerprint of a compile's identity. -/
def fingerprint (h : Host) (a : Analysis) (parts : StaticParts) : Fingerprint where
  key := h.staticKey parts
  components := toMap (componentList h.digest (linkerProgram (h.pathUse a (hostTriple parts.compiler))) parts)

/-! ## Changes -/

/-- A component as it is shown. -/
def shown (component : Option Text) : Text := (component.map (·.take 12)).getD "absent".toList

/-- The names of both. -/
def componentNames (before after : Fingerprint) : List Text :=
  sortedBy id ((before.components ++ after.components).map (·.1))

def argumentGroupsChanged (before after : Fingerprint) : Bool :=
  (componentNames before after).any fun name =>
    "argument ".toList.isPrefixOf name && name != "argument order".toList &&
      get before.components name != get after.components name

/-- What is said of a component that changed. -/
def change (before after : Fingerprint) (name : Text) : Option Text :=
  let previous := get before.components name
  let current := get after.components name
  if previous ≠ current then
    some (name ++ " (".toList ++ shown previous ++ " → ".toList ++ shown current ++ ")".toList)
  else none

def fingerprintChanges (before after : Fingerprint) : List Text :=
  ((componentNames before after).filter fun name =>
    name != "argument order".toList || !argumentGroupsChanged before after).filterMap (change before after)

/-! ## History -/

def NOT_CACHED_YET : Text := "not cached yet: first build of this crate seen here".toList

def BUILD_VARIANT : Text := "not cached: differs from an earlier build of this crate:".toList

def ENTRY_GONE : Text := "not cached: built before, but its entry was evicted or never saved".toList

/-- `min_by_key`: the first of the least. -/
def minByKey {α : Type} (key : α → Nat) : List α → Option α
  | [] => none
  | a :: rest =>
    match minByKey key rest with
    | some b => if key b < key a then some b else some a
    | none => some a

/-- An identity compared with an earlier one. -/
def variantOf (old current : Fingerprint) : Text :=
  BUILD_VARIANT ++ ' ' :: "; ".toList.intercalate (fingerprintChanges old current) ++ " (compared with ".toList ++
    old.key.take 12 ++ ")".toList

/-- The miss of an identity, explained by the ones before. -/
def explanation (history : List Fingerprint) (current : Fingerprint) : Text :=
  if history.any (·.key = current.key) then ENTRY_GONE
  else ((minByKey (fun old => (fingerprintChanges old current).length) history).map (variantOf · current)).getD
    NOT_CACHED_YET

/-- `remember_identity`: the explanation, and the history that is kept. -/
def rememberIdentity (history : List Fingerprint) (current : Fingerprint) : Text × List Fingerprint :=
  (explanation history current, (current :: history.filter fun old => old.key ≠ current.key).take 8)

/-! ## Lookups -/

section Lookups

variable {entries : List (Text × Text)} {name : Text}

theorem get_eq_some_imp {value : Text} (h : get entries name = some value) : (name, value) ∈ entries := by
  obtain ⟨entry, hfind, rfl⟩ := Option.map_eq_some_iff.1 h
  have hname : entry.1 = name := by simpa using List.find?_some hfind
  exact hname ▸ List.mem_of_find?_eq_some hfind

theorem get_isSome : (get entries name).isSome = true ↔ name ∈ entries.map (·.1) := by
  simp [get, List.find?_isSome]

theorem get_append (entries others : List (Text × Text)) (name : Text) :
    get (entries ++ others) name = (get entries name).or (get others name) := by
  simp only [get, List.find?_append, Option.map_or]

/-- Of several values of a name the last stays. -/
theorem get_toMap (entries : List (Text × Text)) (name : Text) : get (toMap entries) name = get entries.reverse name :=
  congrArg (Option.map Prod.snd) (find?_sortedBy Prod.fst name entries.reverse)

/-- Names with a common word before them. -/
theorem get_map_word (word : Text) (f : Text × Text → Text) (entries : List (Text × Text)) (name : Text) :
    get (entries.map fun entry => (word ++ entry.1, f entry)) (word ++ name) =
      (entries.find? fun entry => entry.1 = name).map f := by
  simp only [get, List.find?_map, Option.map_map, Function.comp_def, List.append_cancel_left_eq]

theorem get_map_elsewhere {word : Text} {f : Text × Text → Text} (h : ¬ word <+: name) :
    get (entries.map fun entry => (word ++ entry.1, f entry)) name = none := by
  rw [get, Option.map_eq_none_iff, List.find?_eq_none]
  intro entry hentry heq
  obtain ⟨given, -, rfl⟩ := List.mem_map.1 hentry
  exact h ⟨given.1, of_decide_eq_true heq⟩

/-- One value a name. -/
def Functional (entries : List (Text × Text)) : Prop :=
  ∀ entry ∈ entries, ∀ other ∈ entries, entry.1 = other.1 → entry.2 = other.2

theorem Functional.get_reverse (h : Functional entries) (value : Text) :
    get entries.reverse name = some value ↔ (name, value) ∈ entries := by
  refine ⟨fun heq => List.mem_reverse.1 (get_eq_some_imp heq), fun hmem => ?_⟩
  obtain ⟨other, hother⟩ := Option.isSome_iff_exists.1
    (get_isSome.2 (List.mem_map.2 ⟨_, List.mem_reverse.2 hmem, rfl⟩))
  have hsame : other = value := h (name, other) (List.mem_reverse.1 (get_eq_some_imp hother)) (name, value) hmem rfl
  exact hother.trans (congrArg some hsame)

/-- Lists that are maps are told by their lookups. -/
theorem Functional.mem_iff {others : List (Text × Text)} (h : Functional entries) (h' : Functional others) :
    (∀ name, get entries.reverse name = get others.reverse name) ↔ ∀ entry, entry ∈ entries ↔ entry ∈ others := by
  constructor
  · intro heq entry
    rw [← h.get_reverse, ← h'.get_reverse, heq]
  · intro hmem name
    refine Option.ext fun value => ?_
    rw [h.get_reverse, h'.get_reverse, hmem]

end Lookups

/-! ## What changed -/

variable {before after : Fingerprint}

theorem mem_componentNames {name : Text} : name ∈ componentNames before after ↔
    (get before.components name).isSome = true ∨ (get after.components name).isSome = true := by
  rw [get_isSome, get_isSome, ← List.mem_append, ← List.map_append, componentNames]
  refine ⟨mem_of_mem_sortedBy id, fun h => (mem_sortedBy id).2 ?_⟩
  obtain ⟨found, hfound⟩ : ∃ found, ((before.components ++ after.components).map (·.1)).find?
      (fun other => id other = id name) = some found :=
    Option.isSome_iff_exists.1 (List.find?_isSome.2 ⟨name, h, by simp⟩)
  have hsame : found = name := by simpa using List.find?_some hfound
  rw [hfound, hsame]

/-- A component that differs has a name. -/
theorem mem_componentNames_of_ne {name : Text} (h : get before.components name ≠ get after.components name) :
    name ∈ componentNames before after := by
  rw [mem_componentNames]
  cases hb : get before.components name with
  | some value => exact .inl rfl
  | none =>
    cases ha : get after.components name with
    | some value => exact .inr rfl
    | none => exact absurd (hb.trans ha.symm) h

/-- Nothing is said exactly where nothing changed: the order of the arguments
is left out only where one of them is named. -/
theorem fingerprintChanges_eq_nil : fingerprintChanges before after = [] ↔
    ∀ name, get before.components name = get after.components name := by
  have hchange : ∀ name, change before after name = none ↔ get before.components name = get after.components name := by
    intro name
    simp only [change]
    split
    · next hne => exact iff_of_false (by rintro ⟨⟩) hne
    · next heq => exact iff_of_true rfl (not_not.1 heq)
  rw [fingerprintChanges, List.filterMap_eq_nil_iff]
  constructor
  · intro h name
    by_contra hne
    -- a name that differs is said, or it is the order and another is said
    have hsaid : ∀ other, other ≠ "argument order".toList →
        get before.components other = get after.components other := by
      intro other hother
      by_contra hdiffers
      have hkept : (other != "argument order".toList || !argumentGroupsChanged before after) = true := by
        rw [bne_iff_ne.2 hother, Bool.true_or]
      exact hdiffers ((hchange other).1 (h other (List.mem_filter.2 ⟨mem_componentNames_of_ne hdiffers, hkept⟩)))
    have hgroups : argumentGroupsChanged before after = false := by
      rw [argumentGroupsChanged, List.any_eq_false]
      intro other _ hany
      simp only [Bool.and_eq_true, bne_iff_ne] at hany
      exact hany.2 (hsaid other hany.1.2)
    exact hne ((hchange name).1 (h name (List.mem_filter.2 ⟨mem_componentNames_of_ne hne, by simp [hgroups]⟩)))
  · intro h name _
    exact (hchange name).2 (h name)

/-! ## The components of an identity -/

section Components

variable {digest : List UInt8 → Text} {linker : Option Text} {p q : StaticParts} {name : Text}

/-- Arguments are counted under `argument …` or `source argument`. -/
theorem head?_label : ∀ args : List Text, ∀ group ∈ argumentGroups args,
    group.1.head? = some 'a' ∨ group.1.head? = some 's'
  | [], group, h => absurd h List.not_mem_nil
  | [arg], group, h => by
    rw [argumentGroups, List.mem_singleton] at h
    exact h ▸ head?_labelledAlone arg
  | arg :: next :: rest, group, h => by
    rw [argumentGroups] at h
    split at h
    · rcases List.mem_cons.1 h with rfl | h
      · exact .inl (head?_labelled arg next)
      · exact head?_label rest group h
    · rcases List.mem_cons.1 h with rfl | h
      · exact head?_labelledAlone arg
      · exact head?_label (next :: rest) group h
where
  head?_labelled (arg value : Text) : (labelled arg value).1.head? = some 'a' := by
    unfold labelled
    split <;> rfl
  head?_labelledAlone (arg : Text) :
      (labelledAlone arg).1.head? = some 'a' ∨ (labelledAlone arg).1.head? = some 's' := by
    unfold labelledAlone
    split
    · exact .inl (head?_labelled arg [])
    split
    · exact .inl rfl
    split
    · cases splitOnce ['='] arg <;> exact .inl rfl
    · exact .inr rfl

theorem get_argumentComponents (args : List Text) (ha : name.head? ≠ some 'a') (hs : name.head? ≠ some 's') :
    get (argumentComponents digest args).reverse name = none := by
  rw [get, Option.map_eq_none_iff, List.find?_eq_none]
  intro entry hentry heq
  obtain ⟨label, hlabel, rfl⟩ := List.mem_map.1 (List.mem_reverse.1 hentry)
  have heq : label = name := by simpa using heq
  obtain ⟨group, hgroup, hname⟩ := List.mem_map.1 (mem_of_mem_sortedBy id hlabel)
  rcases head?_label args group hgroup with h | h
  · exact ha (by rw [← heq, ← hname, h])
  · exact hs (by rw [← heq, ← hname, h])

/-- The components that every identity has. -/
def fixedComponents (digest : List UInt8 → Text) (p : StaticParts) : List (Text × Text) :=
  [("argument order".toList, digest (Json.array jsonString p.args)),
    ("compiler version changed".toList, digest p.compiler),
    ("protocol changed".toList, digest (utf8 (toString PROTOCOL_VERSION).toList)),
    ("dependency parser changed".toList, digest (utf8 DEP_INFO_FORMAT)),
    ("output kind changed".toList, digest (utf8 p.kind.name.toList))]

/-- A component is looked for in what was inserted last. -/
theorem get_components (name : Text) : get (toMap (componentList digest linker p)) name =
    (get (p.inputs.reverse.map fun input => ("explicit input changed: ".toList ++ input.1, input.2)) name).or
      ((get ((linker.toList.zip p.linkerOnPath.toList).reverse.map fun entry =>
          ("linker on PATH changed: ".toList ++ entry.1, digest (utf8 entry.2))) name).or
        ((get (p.environment.reverse.map fun entry =>
            ("environment changed: ".toList ++ entry.1, digest (utf8 entry.2))) name).or
          ((get (fixedComponents digest p).reverse name).or (get (argumentComponents digest p.args).reverse name)))) := by
  rw [get_toMap, componentList, List.reverse_append, List.reverse_append, List.reverse_append, List.reverse_append,
    get_append, get_append, get_append, get_append, ← List.map_reverse, ← List.map_reverse, ← List.map_reverse]
  rfl

/-- They differ in a letter. -/
theorem not_prefix_at {word name : Text} (n : Nat) (h : word[n]? ≠ name[n]?) (hn : n < word.length) :
    ¬ word <+: name := by
  rintro ⟨rest, rfl⟩
  exact h (List.getElem?_append_left hn).symm

theorem get_fixed : get (toMap (componentList digest linker p)) "argument order".toList =
      some (digest (Json.array jsonString p.args)) ∧
    get (toMap (componentList digest linker p)) "compiler version changed".toList = some (digest p.compiler) ∧
      get (toMap (componentList digest linker p)) "output kind changed".toList =
        some (digest (utf8 p.kind.name.toList)) := by
  refine ⟨?_, ?_, ?_⟩ <;>
    rw [get_components, get_map_elsewhere (by decide), get_map_elsewhere (by decide),
      get_map_elsewhere (by decide)] <;>
    rfl

/-- No fixed component's name has that second letter. -/
theorem get_fixedComponents (h : name[1]? ∉ ['r', 'o', 'e', 'u'].map some) :
    get (fixedComponents digest p).reverse name = none := by
  rw [← Option.not_isSome_iff_eq_none, get_isSome, List.map_reverse, List.mem_reverse]
  have hletters : ∀ other ∈ ["argument order", "compiler version changed", "protocol changed",
      "dependency parser changed", "output kind changed"].map String.toList,
      other[1]? ∈ ['r', 'o', 'e', 'u'].map some := by decide
  exact fun hmem => h (hletters name hmem)

theorem get_environment (name : Text) :
    get (toMap (componentList digest linker p)) ("environment changed: ".toList ++ name) =
    (get p.environment.reverse name).map fun value => digest (utf8 value) := by
  have hinput : ¬ "explicit input changed: ".toList <+: "environment changed: ".toList ++ name :=
    not_prefix_at 1 (by simp) (by decide)
  have hlinker : ¬ "linker on PATH changed: ".toList <+: "environment changed: ".toList ++ name :=
    not_prefix_at 0 (by simp) (by decide)
  have hfixed : get (fixedComponents digest p).reverse ("environment changed: ".toList ++ name) = none :=
    get_fixedComponents (by decide : some 'n' ∉ ['r', 'o', 'e', 'u'].map some)
  rw [get_components, get_map_elsewhere hinput, get_map_elsewhere hlinker, get_map_word, hfixed,
    get_argumentComponents _ (by simp) (by simp)]
  simp [get, Function.comp_def]

theorem get_linker (name : Text) :
    get (toMap (componentList digest linker p)) ("linker on PATH changed: ".toList ++ name) =
    (get (linker.toList.zip p.linkerOnPath.toList).reverse name).map fun found => digest (utf8 found) := by
  have hinput : ¬ "explicit input changed: ".toList <+: "linker on PATH changed: ".toList ++ name :=
    not_prefix_at 0 (by simp) (by decide)
  have henv : ¬ "environment changed: ".toList <+: "linker on PATH changed: ".toList ++ name :=
    not_prefix_at 0 (by simp) (by decide)
  have hfixed : get (fixedComponents digest p).reverse ("linker on PATH changed: ".toList ++ name) = none :=
    get_fixedComponents (by decide : some 'i' ∉ ['r', 'o', 'e', 'u'].map some)
  rw [get_components, get_map_elsewhere hinput, get_map_word, get_map_elsewhere henv, hfixed,
    get_argumentComponents _ (by simp) (by simp)]
  simp [get, Function.comp_def]

theorem get_input (name : Text) :
    get (toMap (componentList digest linker p)) ("explicit input changed: ".toList ++ name) =
    get p.inputs.reverse name := by
  have hlinker : ¬ "linker on PATH changed: ".toList <+: "explicit input changed: ".toList ++ name :=
    not_prefix_at 0 (by simp) (by decide)
  have henv : ¬ "environment changed: ".toList <+: "explicit input changed: ".toList ++ name :=
    not_prefix_at 1 (by simp) (by decide)
  have hfixed : get (fixedComponents digest p).reverse ("explicit input changed: ".toList ++ name) = none :=
    get_fixedComponents (by decide : some 'x' ∉ ['r', 'o', 'e', 'u'].map some)
  rw [get_components, get_map_word, get_map_elsewhere hlinker, get_map_elsewhere henv, hfixed,
    get_argumentComponents _ (by simp) (by simp)]
  simp [get]

end Components

/-! ## What a changed key is explained by -/

/-- The same, but for the order of the explicit inputs, and how often each is
given. -/
structure SameParts (p q : StaticParts) : Prop where
  compiler : p.compiler = q.compiler
  kind : p.kind = q.kind
  args : p.args = q.args
  environment : p.environment = q.environment
  linkerOnPath : p.linkerOnPath = q.linkerOnPath
  inputs : ∀ input, input ∈ p.inputs ↔ input ∈ q.inputs

/-- The linker on `PATH` is named first. -/
theorem linkerOnPath_ok {h : Host} {workspace : Text} {pathUse : PathUse} {found : Option Text}
    (hf : h.linkerOnPath workspace pathUse = .ok found) :
    found = none ∧ linkerProgram pathUse = none ∨
      ∃ program rest, linkerProgram pathUse = some program ∧ found = some (program ++ ':' :: rest) := by
  cases pathUse with
  | none => exact .inl ⟨(pure_eq_ok.1 hf).symm, rfl⟩
  | whole => exact .inl ⟨(pure_eq_ok.1 hf).symm, rfl⟩
  | linker program =>
    refine .inr ⟨program, ?_⟩
    simp only [Host.linkerOnPath] at hf
    split at hf
    · obtain ⟨digest, -, hf⟩ := bind_eq_ok.1 hf
      exact ⟨digest, rfl, (pure_eq_ok.1 hf).symm⟩
    · exact ⟨"not on PATH".toList, rfl, (pure_eq_ok.1 hf).symm⟩

/-- No linker that is looked for has a colon in its name. -/
theorem linkerProgram_pathUse {h : Host} {a : Analysis} {host : Option Text} {program : Text}
    (hp : linkerProgram (h.pathUse a host) = some program) : ':' ∉ program := by
  unfold Host.pathUse pathUseWith at hp
  repeat' split at hp
  all_goals cases hp
  all_goals decide

section Explained

variable {h h' : Host} {a a' : Analysis} {workspace workspace' : Text} {p q : StaticParts}

/-- What `staticParts` keeps of the environment is a map. -/
theorem staticParts_ok (hp : h.staticParts workspace a = .ok p) :
    h.linkerOnPath workspace (h.pathUse a (hostTriple p.compiler)) = .ok p.linkerOnPath ∧
      p.environment.Pairwise fun entry other => entry.1 < other.1 := by
  obtain ⟨compiler, -, hp⟩ := bind_eq_ok.1 hp
  obtain ⟨found, hfound, hp⟩ := bind_eq_ok.1 hp
  obtain ⟨libraries, -, hp⟩ := bind_eq_ok.1 hp
  obtain ⟨inputs, -, hp⟩ := bind_eq_ok.1 hp
  obtain rfl := pure_eq_ok.1 hp
  exact ⟨hfound, (pairwise_sortedBy Prod.fst _).sublist List.filter_sublist⟩

theorem functional_of_pairwise {entries : List (Text × Text)}
    (hs : entries.Pairwise fun entry other => entry.1 < other.1) : Functional entries := by
  have hn : (entries.map Prod.fst).Nodup := List.pairwise_map.2 (hs.imp fun h => h.ne)
  exact fun entry he other ho heq => congrArg Prod.snd (List.inj_on_of_nodup_map hn he ho heq)

/-- Two maps that are looked up alike are one. -/
theorem eq_of_get {entries others : List (Text × Text)} (hs : entries.Pairwise fun entry other => entry.1 < other.1)
    (hs' : others.Pairwise fun entry other => entry.1 < other.1)
    (hget : ∀ name, get entries.reverse name = get others.reverse name) : entries = others := by
  have hmem := ((functional_of_pairwise hs).mem_iff (functional_of_pairwise hs')).1 hget
  have hn : ∀ l : List (Text × Text), (l.Pairwise fun entry other => entry.1 < other.1) → l.Nodup := fun l hl =>
    hl.imp fun hlt heq => hlt.ne (congrArg Prod.fst heq)
  have hperm := (List.perm_ext_iff_of_nodup (hn _ hs) (hn _ hs')).2 hmem
  refine hperm.eq_of_pairwise (fun x y _ _ hxy hyx => ?_) hs hs'
  exact absurd hxy hyx.asymm

/-- The program and what was found of it are the last pair's. -/
theorem get_zip (program found name : Text) :
    get ((some program).toList.zip (some found).toList).reverse name = if program = name then some found else none := by
  by_cases hname : program = name <;> simp [get, hname]

theorem linkers_eq {digest : List UInt8 → Text} (hd : Function.Injective digest)
    {linker linker' found found' : Option Text}
    (hl : found = none ∧ linker = none ∨ ∃ program rest, linker = some program ∧ found = some (program ++ ':' :: rest))
    (hl' : found' = none ∧ linker' = none ∨
      ∃ program rest, linker' = some program ∧ found' = some (program ++ ':' :: rest))
    (h : ∀ name, (get (linker.toList.zip found.toList).reverse name).map (fun value => digest (utf8 value)) =
      (get (linker'.toList.zip found'.toList).reverse name).map fun value => digest (utf8 value)) : found = found' := by
  have hcode : Function.Injective fun value : Text => digest (utf8 value) := hd.comp utf8_injective
  have hget := fun name => Option.map_injective hcode (h name)
  rcases hl with ⟨rfl, rfl⟩ | ⟨program, rest, rfl, rfl⟩ <;> rcases hl' with ⟨rfl, rfl⟩ | ⟨program', rest', rfl, rfl⟩
  · rfl
  · have hone := hget program'
    rw [get_zip, if_pos rfl] at hone
    cases hone
  · have hone := hget program
    rw [get_zip, if_pos rfl] at hone
    cases hone
  · have hone := hget program
    rw [get_zip, get_zip, if_pos rfl] at hone
    split at hone
    · exact hone
    · cases hone

/-- What was found tells which program it was. -/
theorem linkerProgram_eq {linker linker' found found' : Option Text}
    (hl : found = none ∧ linker = none ∨ ∃ program rest, linker = some program ∧ found = some (program ++ ':' :: rest))
    (hl' : found' = none ∧ linker' = none ∨
      ∃ program rest, linker' = some program ∧ found' = some (program ++ ':' :: rest))
    (hcolon : ∀ {program}, linker = some program → ':' ∉ program)
    (hcolon' : ∀ {program}, linker' = some program → ':' ∉ program) (h : found = found') : linker = linker' := by
  have hcut : ∀ program rest : Text, ':' ∉ program → (program ++ ':' :: rest).takeWhile (· != ':') = program := by
    intro program rest hnot
    have hpos : ∀ c ∈ program, (c != ':') = true := fun c hc => bne_iff_ne.2 fun heq => hnot (by rwa [← heq])
    rw [List.takeWhile_append_of_pos hpos]
    simp
  rcases hl with ⟨rfl, rfl⟩ | ⟨program, rest, rfl, rfl⟩ <;> rcases hl' with ⟨rfl, rfl⟩ | ⟨program', rest', rfl, rfl⟩
  · rfl
  · cases h
  · cases h
  · have hsame := congrArg (List.takeWhile (· != ':')) (Option.some.inj h)
    rw [hcut _ _ (hcolon rfl), hcut _ _ (hcolon' rfl)] at hsame
    rw [hsame]

/-- What is looked up alike without the word is with it. -/
theorem get_inputs_eq {entries others : List (Text × Text)}
    (h : ∀ name, get entries.reverse name = get others.reverse name) (name : Text) :
    get (entries.reverse.map fun input => ("explicit input changed: ".toList ++ input.1, input.2)) name =
      get (others.reverse.map fun input => ("explicit input changed: ".toList ++ input.1, input.2)) name := by
  by_cases hpre : "explicit input changed: ".toList <+: name
  · obtain ⟨rest, rfl⟩ := hpre
    rw [get_map_word, get_map_word]
    exact h rest
  · rw [get_map_elsewhere hpre, get_map_elsewhere hpre]

end Explained

/-! ## A run -/

theorem minByKey_eq_none {α : Type} {key : α → Nat} {l : List α} : minByKey key l = none ↔ l = [] := by
  cases l with
  | nil => exact iff_of_true rfl rfl
  | cons a rest =>
    refine iff_of_false ?_ (List.cons_ne_nil a rest)
    unfold minByKey
    split
    · split <;> simp
    · simp

theorem minByKey_le {α : Type} {key : α → Nat} {b : α} : ∀ {l : List α}, minByKey key l = some b →
    b ∈ l ∧ ∀ c ∈ l, key b ≤ key c
  | [], h => by cases h
  | a :: rest, h => by
    unfold minByKey at h
    split at h
    · next least hleast =>
      obtain ⟨hmem, hle⟩ := minByKey_le hleast
      split at h
      · next hlt =>
        obtain rfl := Option.some.inj h
        exact ⟨List.mem_cons_of_mem a hmem, List.forall_mem_cons.2 ⟨hlt.le, hle⟩⟩
      · next hnot =>
        obtain rfl := Option.some.inj h
        exact ⟨List.mem_cons_self, List.forall_mem_cons.2 ⟨le_refl _, fun c hc => by have := hle c hc; omega⟩⟩
    · next hnone =>
      obtain rfl := Option.some.inj h
      rw [minByKey_eq_none.1 hnone]
      exact ⟨List.mem_singleton_self a, by simp⟩

/-- The history after some identities. -/
def remembered (used : List Fingerprint) : List Fingerprint :=
  used.foldl (fun history current => (rememberIdentity history current).2) []

/-- The history is the last eight identities that differ, each by its latest
fingerprint. -/
theorem remembered_eq (used : List Fingerprint) :
    remembered used = (Recent.latest Fingerprint.key used.reverse).take 8 :=
  Recent.foldl_touch Fingerprint.key 8 used

/-- What a miss is said to be, after the identities `used`. -/
inductive Explained (used : List Fingerprint) (current : Fingerprint) : Text → Prop
  /-- It is one of the last eight identities that differ. -/
  | gone {old} : old ∈ (Recent.latest Fingerprint.key used.reverse).take 8 → old.key = current.key →
      Explained used current ENTRY_GONE
  /-- It is none of them, and is compared with the most similar. -/
  | variant {old} : (∀ other ∈ (Recent.latest Fingerprint.key used.reverse).take 8, other.key ≠ current.key) →
      old ∈ (Recent.latest Fingerprint.key used.reverse).take 8 →
      (∀ other ∈ (Recent.latest Fingerprint.key used.reverse).take 8,
        (fingerprintChanges old current).length ≤ (fingerprintChanges other current).length) →
      Explained used current (variantOf old current)
  | first : used = [] → Explained used current NOT_CACHED_YET

theorem explanation_explained (used : List Fingerprint) (current : Fingerprint) :
    Explained used current (explanation (remembered used) current) := by
  unfold explanation
  rw [remembered_eq]
  split
  · next hany =>
    obtain ⟨old, hold, hkey⟩ := List.any_eq_true.1 hany
    exact .gone hold (of_decide_eq_true hkey)
  · next hany =>
    have hothers : ∀ other ∈ (Recent.latest Fingerprint.key used.reverse).take 8, other.key ≠ current.key :=
      fun other hother heq => hany (List.any_eq_true.2 ⟨other, hother, decide_eq_true heq⟩)
    cases hmin : minByKey (fun old => (fingerprintChanges old current).length)
        ((Recent.latest Fingerprint.key used.reverse).take 8) with
    | some old =>
      obtain ⟨hold, hleast⟩ := minByKey_le hmin
      exact .variant hothers hold hleast
    | none =>
      refine .first ?_
      cases used using List.reverseRecOn with
      | nil => rfl
      | append_singleton used last =>
        rw [minByKey_eq_none, List.reverse_append] at hmin
        cases hmin

/-- **What is kept is the last eight identities that differ, and a miss is
explained by them.** -/
theorem rememberIdentity_explained (used : List Fingerprint) (current : Fingerprint) :
    remembered used = (Recent.latest Fingerprint.key used.reverse).take 8 ∧
      Explained used current (rememberIdentity (remembered used) current).1 :=
  ⟨remembered_eq used, explanation_explained used current⟩

end Bellows.Cli.Diagnostics
