/-
The codegen options whose compiles are never to be cached: how rustc reads
them (`InForce`), which of them the analysis sees (`Seen`), and that it
refuses an otherwise cacheable compile only for those.
-/
import Bellows.Cli.Invocation

namespace Bellows.Cli

open Text Checked

/-! ## How rustc reads its arguments -/

/-- `-Cx` and `--codegen=x` -/
def joinedCodegen (arg : Text) : Option Text :=
  (stripPrefix? "-C".toList arg).or (stripPrefix? "--codegen=".toList arg)

/-- The codegen options: `-C x`, `-Cx`, `--codegen x` and `--codegen=x`, up to
a `--`. `takesValue` tells which other options take the argument after them. -/
def codegenOptions (takesValue : Text → Bool) : List Text → List Text
  | [] => []
  | [arg] => if arg = "-C".toList then [] else (joinedCodegen arg).toList
  | arg :: next :: rest =>
    if arg = "-C".toList ∨ arg = "--codegen".toList then next :: codegenOptions takesValue rest
    else if arg = "--".toList then []
    else
      match joinedCodegen arg with
      | some option => option :: codegenOptions takesValue (next :: rest)
      | none =>
        if takesValue arg then codegenOptions takesValue rest else codegenOptions takesValue (next :: rest)

/-- rustc reads a `_` in an option's name as a `-`. -/
def optionName (option : Text) : Text := (option.takeWhile (· != '=')).map fun c => if c = '_' then '-' else c

/-- What stands after the first equals sign, if there is one. -/
def optionSetting (option : Text) : Option Text := stripPrefix? ['='] (option.dropWhile (· != '='))

/-- The last value given to an option is in force. -/
def valueInForce (options : List Text) (name : String) : Option Text :=
  ((options.filter (optionName · = name.toList)).filterMap optionSetting).getLast?

/-- An option whose inputs or outputs the cache does not know. -/
def unmodeled (option : Text) : Bool :=
  optionName option = "save-temps".toList ||
    (optionName option ∈ ["linker-plugin-lto".toList, "profile-use".toList, "llvm-plugins".toList] &&
      (optionSetting option).isSome)

def InForce (takesValue : Text → Bool) (args : List Text) : Prop :=
  valueInForce (codegenOptions takesValue args) "target-cpu" = some "native".toList ∨
    ∃ option ∈ codegenOptions takesValue args, unmodeled option = true

/-! ## What the analysis asks of the arguments -/

/-- What its lookups find of those options: the first `target-cpu`, and
options after a `-C`, as they are spelled with hyphens. -/
def Seen (args : List Text) : Prop :=
  codegenValue args "target-cpu" = some "native".toList ∨
    ∃ option ∈ codegenValues args, isSaveTemps option = true ∨ codegenInputs.any (·.isPrefixOf option) = true

/-- The arguments after the response files. -/
def expandedArgs (s : Surroundings) (raw : List OsText) : Except String (List Text) :=
  utf8Args raw.tail >>= expandResponseFiles s

/-- A crate of the sysroot, or an artifact that is there. -/
def externModeled (s : Surroundings) (value : Text) : Prop :=
  match splitOnce ['='] value with
  | none => afterLast ':' value ∈ SYSROOT_CRATES
  | some (_, path) => s.files.isFile path = true

/-- Nothing but those options stands against caching the compile. -/
structure Cacheable (s : Surroundings) (raw : List OsText) (args : List Text) : Prop where
  rustc : raw ≠ []
  noProbe : ∀ given, utf8Args raw.tail = .ok given → isProbe given = false
  noSysroot : optionValue args "--sysroot" = none
  noTargetFile : ∀ target, optionValue args "--target" = some target → isTargetFile s target = false
  noUnstable : unmodeledUnstableFlag args = none
  crateName : (optionValue args "--crate-name").isSome
  crateTypes : ∀ kind ∈ crateTypesOf args, kind ∈ MODELED_CRATE_TYPES
  native : ∃ inputs, nativeInputs args = .ok inputs
  outDir : (optionValue args "--out-dir").isSome
  extraFilename : ∃ extra, extraFilenameOf args = .ok extra
  source : ∃ arg ∈ args, endsWith arg ".rs".toList = true ∧ s.files.pathExists arg = true
  externs : ∀ value ∈ multiOptionValues args "--extern", externModeled s value
  emit : ∃ emit, emitOf args = .ok emit ∧
    (makesLinked (crateTypesOf args) emit = true → isRustc (driverOf (raw.head?.getD [])) = true)

variable {s : Surroundings} {raw : List OsText} {args : List Text}

theorem externInput_isOk_iff (found : List Text × List Text) (value : Text) :
    (∃ inputs, externInput s found value = .ok inputs) ↔ externModeled s value := by
  unfold externInput externModeled
  split
  · split <;> simp [*, throw, throwThe, MonadExceptOf.throw, pure, Except.pure]
  · split
    · split <;> simp [*, pure, Except.pure]
    · simp [*, throw, throwThe, MonadExceptOf.throw]

theorem not_seen_iff : ¬ Seen args ↔ codegenValue args "target-cpu" ≠ some "native".toList ∧
    (codegenValues args).any isSaveTemps = false ∧ hasUnmodeledCodegenInputs args = false := by
  simp only [Seen, hasUnmodeledCodegenInputs, not_or, not_exists, not_and, List.any_eq_false]
  grind

/-- The arguments of a compile that is cached. -/
theorem analyze_isOk_iff : (∃ analysis, analyze s raw = .ok analysis) ↔
    ∃ args, expandedArgs s raw = .ok args ∧ Cacheable s raw args ∧ ¬ Seen args := by
  cases raw with
  | nil =>
    refine iff_of_false (by simp [analyze, throw, throwThe, MonadExceptOf.throw]) fun h => ?_
    obtain ⟨args, -, h, -⟩ := h
    exact h.rustc rfl
  | cons rustc raw =>
    simp only [analyze, analyzeArgs, bind_eq_ok, refuseIf_eq_ok, refuse_eq_ok, okOr_eq_ok, pure_eq_ok, not_seen_iff]
    constructor
    · intro h
      obtain ⟨-, given, hgiven, -, hprobe, args, hargs, -, hsysroot, -, htarget, -, hcpu, -, htemps, -, hunstable,
        crate, hcrate, -, htypes, inputs, hnative, out, hout, extra, hextra, source, hsource, found, hfound, emit, hemit,
        -, hcodegen, -, hdriver, -⟩ := h
      have hcacheable : Cacheable s (rustc :: raw) args := {
        rustc := List.cons_ne_nil _ _
        noProbe := fun other hother => by
          obtain rfl : given = other := Except.ok.inj (hgiven.symm.trans hother)
          exact Bool.eq_false_iff.2 hprobe
        noSysroot := by simpa using hsysroot
        noTargetFile := fun target h => by simpa [h] using htarget
        noUnstable := by simpa using hunstable
        crateName := by simp [hcrate]
        crateTypes := by simpa using htypes
        native := ⟨inputs, hnative⟩
        outDir := by simp [hout]
        extraFilename := ⟨extra, hextra⟩
        source := ⟨source, List.mem_of_find?_eq_some hsource, by simpa using List.find?_some hsource⟩
        externs := (foldlM_isOk_iff externInput_isOk_iff _ _).1 ⟨found, hfound⟩
        emit := ⟨emit, hemit, fun hlinked => by simpa [hlinked] using hdriver⟩ }
      exact ⟨args, bind_eq_ok.2 ⟨given, hgiven, hargs⟩, hcacheable, hcpu, Bool.eq_false_iff.2 htemps,
        Bool.eq_false_iff.2 hcodegen⟩
    · intro h
      obtain ⟨args, hargs, h, hcpu, htemps, hcodegen⟩ := h
      obtain ⟨given, hgiven, hargs⟩ := bind_eq_ok.1 hargs
      obtain ⟨crate, hcrate⟩ := Option.isSome_iff_exists.1 h.crateName
      obtain ⟨inputs, hnative⟩ := h.native
      obtain ⟨out, hout⟩ := Option.isSome_iff_exists.1 h.outDir
      obtain ⟨extra, hextra⟩ := h.extraFilename
      obtain ⟨arg, harg, hrs⟩ := h.source
      obtain ⟨source, hsource⟩ : ∃ source, args.find? (fun arg => endsWith arg ".rs".toList && s.files.pathExists arg) =
          some source := Option.isSome_iff_exists.1 (List.find?_isSome.2 ⟨arg, harg, by rw [hrs.1, hrs.2]; rfl⟩)
      obtain ⟨found, hfound⟩ := (foldlM_isOk_iff externInput_isOk_iff _ ([source], [])).2 h.externs
      obtain ⟨emit, hemit, hdriver⟩ := h.emit
      refine ⟨_, given, hgiven, ⟨⟩, by simp [h.noProbe given hgiven], args, hargs, ⟨⟩, by simp [h.noSysroot], ⟨⟩, ?_, ⟨⟩, hcpu,
        ⟨⟩, by simp [htemps], ⟨⟩, by simp [h.noUnstable], crate, hcrate, ⟨⟩, by simpa using h.crateTypes, inputs, hnative,
        out, hout, extra, hextra, source, hsource, found, hfound, emit, hemit, ⟨⟩, by simp [hcodegen], ⟨⟩, ?_, rfl⟩
      · cases htarget : optionValue args "--target" with
        | none => simp
        | some target => simp [h.noTargetFile target htarget]
      · cases hlinked : makesLinked (crateTypesOf args) emit with
        | false => simp
        | true => simpa using hdriver hlinked

/-! ## What the lookups see -/

theorem findMapArgs_bind {α β : Type} {read : Text → List Text → Option α} {f : α → Option β} : ∀ args : List Text,
    findMapArgs (fun arg rest => (read arg rest).bind f) args = ((filterMapArgs read args).filterMap f).head?
  | [] => rfl
  | arg :: rest => by
    rw [findMapArgs, filterMapArgs, findMapArgs_bind rest, List.filterMap_append]
    cases read arg rest with
    | none => simp
    | some a => cases hf : f a <;> simp [hf]

theorem codegenValueOf_joined {arg : Text} (hshort : ¬ arg = "-C".toList) (hlong : ¬ "--codegen=".toList <+: arg)
    (rest : List Text) : codegenValueOf arg rest = joinedCodegen arg := by
  rw [codegenValueOf, if_neg hshort, joinedCodegen, stripPrefix?_eq_none.2 hlong, Option.or_none]

theorem codegenValues_sublist_cons (arg : Text) (rest : List Text) :
    (codegenValues rest).Sublist (codegenValues (arg :: rest)) := List.sublist_append_right _ _

/-- What rustc finds after a `-C` the lookups find too. -/
theorem codegenOptions_sublist (takesValue : Text → Bool) {args : List Text}
    (hlong : ∀ arg ∈ args, arg ≠ "--codegen".toList ∧ ¬ "--codegen=".toList <+: arg) :
    (codegenOptions takesValue args).Sublist (codegenValues args) := by
  induction args using codegenOptions.induct takesValue with
  | case1 => exact .slnil
  | case2 => simp [codegenOptions]
  | case3 arg hshort =>
    rw [codegenOptions, if_neg hshort, codegenValues, filterMapArgs,
      codegenValueOf_joined hshort (hlong arg List.mem_cons_self).2, filterMapArgs, List.append_nil]
  | case4 arg next rest hform ih =>
    have hshort : arg = "-C".toList := hform.resolve_right (hlong arg List.mem_cons_self).1
    have hnext : codegenValues (arg :: next :: rest) = next :: codegenValues (next :: rest) := by
      rw [codegenValues, filterMapArgs, codegenValueOf, if_pos hshort]
      rfl
    have hrest := ih fun other ho => hlong other (List.mem_cons_of_mem _ (List.mem_cons_of_mem _ ho))
    rw [codegenOptions, if_pos hform, hnext]
    exact (hrest.trans (codegenValues_sublist_cons _ _)).cons_cons _
  | case5 next rest hform =>
    rw [codegenOptions, if_neg hform, if_pos rfl]
    exact List.nil_sublist _
  | case6 arg next rest hform hend option hoption ih =>
    have hshort : ¬ arg = "-C".toList := fun h => hform (.inl h)
    have hrest := ih fun other ho => hlong other (List.mem_cons_of_mem _ ho)
    rw [codegenOptions, if_neg hform, if_neg hend, hoption, codegenValues, filterMapArgs,
      codegenValueOf_joined hshort (hlong arg List.mem_cons_self).2, hoption]
    exact hrest.cons_cons _
  | case7 arg next rest hform hend hnone htakes ih =>
    have hrest := ih fun other ho => hlong other (List.mem_cons_of_mem _ (List.mem_cons_of_mem _ ho))
    rw [codegenOptions, if_neg hform, if_neg hend, hnone]
    simp only [if_pos htakes]
    exact hrest.trans ((codegenValues_sublist_cons _ _).trans (codegenValues_sublist_cons _ _))
  | case8 arg next rest hform hend hnone htakes ih =>
    have hrest := ih fun other ho => hlong other (List.mem_cons_of_mem _ ho)
    rw [codegenOptions, if_neg hform, if_neg hend, hnone]
    simp only [if_neg htakes]
    exact hrest.trans (codegenValues_sublist_cons _ _)

/-- An option is its name, with what it sets. -/
theorem option_eq (option : Text) : option = option.takeWhile (· != '=') ++ (optionSetting option).elim [] ('=' :: ·) := by
  induction option with
  | nil => rfl
  | cons c option ih =>
    by_cases hc : c = '='
    · subst hc
      simp [optionSetting, stripPrefix?]
    · have hset : optionSetting (c :: option) = optionSetting option := by simp [optionSetting, hc]
      rw [hset, List.takeWhile_cons_of_pos (by simpa using hc), List.cons_append, ← ih]

/-- A name without a `_` is spelled as rustc reads it. -/
theorem option_eq_of_name {option name : Text} (h : '_' ∉ option.takeWhile (· != '=')) (hname : optionName option = name) :
    option = name ++ (optionSetting option).elim [] ('=' :: ·) := by
  have hsame : optionName option = option.takeWhile (· != '=') := by
    rw [optionName, List.map_congr_left (g := id), List.map_id]
    intro c hc
    refine if_neg fun he => h ?_
    rw [← he]
    exact hc
  rw [← hname, hsame]
  exact option_eq option

/-- The short form is used, hyphens are, and every `target-cpu` is the same. -/
structure PlainlySpelled (takesValue : Text → Bool) (args : List Text) : Prop where
  short : ∀ arg ∈ args, arg ≠ "--codegen".toList ∧ ¬ "--codegen=".toList <+: arg
  hyphens : ∀ option ∈ codegenOptions takesValue args, '_' ∉ option.takeWhile (· != '=')
  oneCpu : ∀ cpu ∈ (codegenValues args).filterMap (stripPrefix? "target-cpu=".toList),
    ∀ other ∈ (codegenValues args).filterMap (stripPrefix? "target-cpu=".toList), cpu = other

/-- The lookups see an unmodeled option that is spelled with hyphens. -/
theorem seen_of_unmodeled {option : Text} (h : '_' ∉ option.takeWhile (· != '=')) (hoption : unmodeled option = true) :
    isSaveTemps option = true ∨ codegenInputs.any (·.isPrefixOf option) = true := by
  simp only [unmodeled, Bool.or_eq_true, Bool.and_eq_true, decide_eq_true_eq] at hoption
  obtain hname | ⟨hname, hset⟩ := hoption
  · left
    rw [option_eq_of_name h hname]
    cases optionSetting option with
    | none => rfl
    | some value => simp [isSaveTemps]
  · right
    obtain ⟨value, hvalue⟩ := Option.isSome_iff_exists.1 hset
    have hspelled := option_eq_of_name h rfl
    rw [hvalue] at hspelled
    simp only [List.mem_cons, List.not_mem_nil, or_false] at hname
    rw [hspelled]
    rcases hname with hname | hname | hname <;> rw [hname] <;> simp [codegenInputs]

/-- What is in force and plainly spelled is seen. -/
theorem InForce.seen {takesValue : Text → Bool} {args : List Text} (h : InForce takesValue args)
    (hspelled : PlainlySpelled takesValue args) : Seen args := by
  have hsublist := codegenOptions_sublist takesValue hspelled.short
  obtain hcpu | ⟨option, hoption, hunmodeled⟩ := h
  · left
    obtain ⟨option, hoption, hset⟩ := List.mem_filterMap.1 (List.mem_of_getLast? hcpu)
    obtain ⟨hmem, hname⟩ := List.mem_filter.1 hoption
    have heq := option_eq_of_name (hspelled.hyphens option hmem) (of_decide_eq_true hname)
    have hnative : "native".toList ∈ (codegenValues args).filterMap (stripPrefix? "target-cpu=".toList) := by
      refine List.mem_filterMap.2 ⟨option, hsublist.mem hmem, stripPrefix?_eq_some.2 ?_⟩
      rw [heq, hset]
      rfl
    have hfirst : codegenValue args "target-cpu" =
        ((codegenValues args).filterMap (stripPrefix? "target-cpu=".toList)).head? := findMapArgs_bind args
    rw [hfirst, List.head?_eq_some_head (List.ne_nil_of_mem hnative)]
    exact congrArg some (hspelled.oneCpu _ (List.head_mem _) _ hnative)
  · exact .inr ⟨option, hsublist.mem hoption, seen_of_unmodeled (hspelled.hyphens option hoption) hunmodeled⟩

/-- rustc reads an underscore for a hyphen; the lookups do not. -/
example : InForce (fun _ => false) ["-Ctarget_cpu=native".toList] ∧ ¬ Seen ["-Ctarget_cpu=native".toList] := by
  unfold InForce Seen
  decide +kernel

/-- One source file, and nothing else. -/
def oneSource : Surroundings where
  files := {
    metadata := fun path => if path = "a.rs".toList then some ⟨.file, 0, 0, 0⟩ else none
    symlinkMetadata := fun path => if path = "a.rs".toList then some ⟨.file, 0, 0, 0⟩ else none
    metadata_eq := fun _ _ h _ => h
    canonicalize := some
    readDir := fun _ => none
    digest := fun _ => none }
  readToString := fun _ => .error "No such file or directory"
  host := ⟨false, false, false, false⟩

/-- A compile for the host's own processor, asked for by the long option. -/
def nativeCompile : List Text :=
  ["--crate-name=a".toList, "a.rs".toList, "--crate-type=lib".toList, "--emit=dep-info,metadata,link".toList,
    "-Cextra-filename=-1".toList, "--out-dir=out".toList, "--codegen=target-cpu=native".toList]

end Bellows.Cli
