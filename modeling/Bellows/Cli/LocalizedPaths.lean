/-
Where an input path that passed its check leads: the path it localizes to is
inside the directory of its root, unless a token within it makes a `..` or a
backslash follows the root's token (`StaysInside`).
-/
import Bellows.Cli.FileSystem
import Bellows.Core.Localize
import Bellows.Core.PathNormalizerFacts
import Bellows.Lib.Expansion

namespace Bellows.Cli

open Text Segments Bellows.Core

/-! ## What is asked -/

/-- The path is inside the directory, as its components tell, and none of them
leads up. -/
def Within (dir path : Text) : Prop := startsWith path dir = true ∧ ['.', '.'] ∉ components path

instance (dir path : Text) : Decidable (Within dir path) := inferInstanceAs (Decidable (_ ∧ _))

/-- No token of the value is put where the check did not look. -/
structure StaysInside (n : PathNormalizer) (root value : Text) : Prop where
  /-- A slash follows the root's token, or what it stands for ends in a `.`. -/
  separator : root ++ ['/'] <+: value ∨ ['/', '.'] <:+ locate n.localizations root
  /-- No token ends a segment `..`. -/
  noParent : ∀ entry ∈ n.localizations, ¬ "/..".toList ++ entry.1 <:+: value
  /-- No token that stands for a directory spelled with a final `.` is followed
  by another. -/
  noDot : ∀ entry ∈ n.localizations, ['/', '.'] <:+ entry.2 → ∀ before after,
    value = before ++ entry.1 ++ '.' :: after → ¬ Stops '/' n.localizations after

/-! ## The value -/

theorem root_clear : ∀ root ∈ roots, ∀ c ∈ root, isSeparator c = false := by
  have hall : ∀ root ∈ roots, root.all (fun c => !isSeparator c) = true := by decide +kernel
  intro root hroot c hc
  simpa using List.all_eq_true.1 (hall root hroot) c hc

/-- A path under a root is the root, or goes on with a separator. -/
theorem underRoot_cases {value root : Text} (h : underRoot value root = true) :
    value = root ∨ ∃ sep rest, value = root ++ sep :: rest ∧ isSeparator sep = true := by
  rw [underRoot, Bool.or_eq_true, beq_iff_eq, Option.any_eq_true] at h
  obtain rfl | ⟨suffix, hsuffix, hsep⟩ := h
  · exact .inl rfl
  · cases suffix with
    | nil => simp at hsep
    | cons sep rest => exact .inr ⟨sep, rest, stripPrefix?_eq_some.1 hsuffix, by simpa using hsep⟩

theorem prefix_of_underRoot {value root : Text} (h : underRoot value root = true) : root <+: value := by
  obtain rfl | ⟨sep, rest, rfl, -⟩ := underRoot_cases h
  · exact List.prefix_refl _
  · exact List.prefix_append _ _

/-- What the check says: the root's token, a separator, and no segment `..`. -/
theorem exists_separator {value root : Text} (h : validateNormalizedInputPath value = .ok ()) (hroot : root ∈ roots)
    (hunder : underRoot value root = true) :
    ∃ sep rest, value = root ++ sep :: rest ∧ isSeparator sep = true ∧ ['.', '.'] ∉ value.splitOnP isSeparator := by
  unfold validateNormalizedInputPath at h
  split at h
  · cases h
  split at h
  · cases h
  next found hfound =>
  obtain rfl : found = root := token_unique (List.mem_of_find?_eq_some hfound) hroot
    (prefix_of_underRoot (by simpa using List.find?_some hfound)) (prefix_of_underRoot hunder)
  dsimp only at h
  split at h
  · cases h
  next hsegments =>
  obtain ⟨hne, hsegments⟩ := not_or.1 hsegments
  obtain rfl | ⟨sep, rest, rfl, hsep⟩ := underRoot_cases hunder
  · have hself : stripPrefix? value value = some [] := by simpa using stripPrefix?_append value []
    exact absurd (by simp [hself]) hne
  · refine ⟨sep, rest, rfl, hsep, fun hmem => ?_⟩
    rw [stripPrefix?_append, Option.getD_some, Bool.not_eq_true, List.any_eq_false] at hsegments
    rw [List.splitOnP_append_cons_of_forall_mem (root_clear found hroot) sep hsep, List.mem_cons] at hmem
    obtain rfl | hmem := hmem
    · have hno : ['.', '.'] ∉ roots := by decide
      exact hno hroot
    · have hafter : ['.', '.'] ∈ ((sep :: rest).dropWhile isSeparator).splitOnP isSeparator := by
        rw [List.dropWhile_cons_of_pos hsep]
        exact (mem_splitOnP_dropWhile (by simp) rest).2 hmem
      exact hsegments _ hafter (by decide)

/-! ## The segments of the result -/

theorem mem_components {piece path : Text} (hpiece : piece ≠ []) (hdot : piece ≠ ['.']) :
    piece ∈ components path ↔ piece ∈ path.splitOnP (· == '/') := by
  unfold components
  dsimp only
  rw [List.mem_append, List.mem_filter, or_iff_right, and_iff_left]
  · simp [hpiece, hdot]
  · split
    · simp [hpiece]
    · split <;> simp [hdot]

/-- The components of an absolute path. -/
theorem components_of_absolute {path : Text} (h : path.head? = some '/') :
    components path = [] :: (path.splitOnP (· == '/')).filter fun part => part != [] && part != ['.'] := by
  have habsolute : isAbsolute path = true := by rw [isAbsolute, h]; rfl
  rw [components]
  simp [habsolute]

theorem startsWith_append_iff {dir rest : Text} {sep : Char} (habsolute : dir.head? = some '/')
    (hlast : lastSegment (· == '/') dir ≠ []) :
    startsWith (dir ++ sep :: rest) dir = true ↔ sep = '/' ∨ lastSegment (· == '/') dir = ['.'] := by
  have habsolute' : (dir ++ sep :: rest).head? = some '/' := by
    rw [List.head?_append, habsolute]
    rfl
  rw [startsWith, List.isPrefixOf_iff_prefix, components_of_absolute habsolute, components_of_absolute habsolute',
    List.cons_prefix_cons, and_iff_right rfl]
  by_cases hsep : sep = '/'
  · subst hsep
    rw [List.splitOnP_append_cons dir rest (p := (· == '/')) (by simp), List.filter_append]
    simp
  · obtain ⟨before, hdir⟩ : ∃ before, dir.splitOnP (· == '/') = before ++ [lastSegment (· == '/') dir] :=
      ⟨_, splitOnP_eq_concat _ dir⟩
    obtain ⟨first, after, hrest⟩ := exists_first (· == '/') rest
    have hfirst : (sep :: rest).splitOnP (· == '/') = (sep :: first) :: after := by
      rw [List.splitOnP_cons_eq_if_modifyHead, if_neg (by simpa using hsep), hrest, List.modifyHead_cons]
    generalize lastSegment (· == '/') dir = last at *
    rw [splitOnP_append hdir hfirst, hdir, List.filter_append, List.filter_append]
    by_cases hdot : last = ['.']
    · simp [hdot]
    · have hkept : ∀ part, part ∈ [last] → (part != [] && part != ['.']) = true := by
        intro part hpart
        rw [List.mem_singleton.1 hpart]
        simp [hlast, hdot]
      have hgoes : ((last ++ sep :: first) != [] && (last ++ sep :: first) != ['.']) = true := by
        cases last with
        | nil => exact absurd rfl hlast
        | cons c last => simp
      rw [List.filter_eq_self.2 hkept, List.filter_cons_of_pos (p := fun part => part != [] && part != ['.']) hgoes,
        List.prefix_append_right_inj, List.cons_prefix_cons]
      simp [hsep, hdot]

/-! ## The bases -/

theorem getLast_trimSlashes (path : Text) : (trimSlashes path).getLast? ≠ some '/' := by
  rw [trimSlashes, List.getLast?_reverse]
  intro h
  have hno := List.head?_dropWhile_not (· == '/') path.reverse
  rw [h] at hno
  simp at hno

theorem tokens_shape : ∀ token ∈ tokens, token = '$' :: token.tail ∧ '$' ∉ token.tail ∧ '/' ∉ token := by decide +kernel

theorem tokens_apart : ∀ a ∈ tokens, ∀ b ∈ tokens, a <+: b → a = b := by decide +kernel

/-- The directories of a normalizer, as the claims about them need them: they
are absolute, have no `$` and no `..`, and do not end in a slash. -/
structure Plain (n : PathNormalizer) : Prop where
  token : ∀ base ∈ n.bases, base.1 ∈ tokens
  absolute : n.Absolute
  noParent : ∀ base ∈ n.bases, ['.', '.'] ∉ components base.2
  trimmed : ∀ base ∈ n.bases, base.2.getLast? ≠ some '/'

variable {n : PathNormalizer}

theorem Plain.tokened (h : Plain n) : Tokened '/' '$' n.localizations where
  nodup := n.nodup_localizations
  token := fun entry he => by
    obtain ⟨hshape, hdollar, -⟩ := tokens_shape _ (h.token entry (PathNormalizer.mem_bases_of_mem_localizations he))
    exact ⟨_, hshape, hdollar⟩
  rootless := fun entry he => (tokens_shape _ (h.token entry (PathNormalizer.mem_bases_of_mem_localizations he))).2.2
  path := fun entry he => h.absolute entry (PathNormalizer.mem_bases_of_mem_localizations he)
  apart := fun entry he other ho => tokens_apart _ (h.token entry (PathNormalizer.mem_bases_of_mem_localizations he)) _
    (h.token other (PathNormalizer.mem_bases_of_mem_localizations ho))

/-- The last segment of a directory, and where it shows. -/
theorem Plain.lastSegment (h : Plain n) {base : Text × Text} (hb : base ∈ n.bases) :
    lastSegment (· == '/') base.2 ≠ [] ∧ lastSegment (· == '/') base.2 ≠ ['.', '.'] ∧
      (['/', '.'] <:+ base.2 ↔ lastSegment (· == '/') base.2 = ['.']) := by
  obtain ⟨rest, hrest⟩ := List.head?_eq_some_iff.1 (h.absolute base hb).1
  obtain hclear | ⟨before, sep, hsep, hbase⟩ := clear_or_eq_append_lastSegment (· == '/') base.2
  · have hhead := hclear '/' (by rw [hrest]; exact List.mem_cons_self)
    cases hhead
  obtain rfl := beq_iff_eq.1 hsep
  refine ⟨fun hnil => h.trimmed base hb ?_, fun hparent => h.noParent base hb ?_, fun hsuffix => ?_, fun hdot => ?_⟩
  · rw [hbase, hnil]
    simp
  · rw [mem_components (by simp) (by simp), ← hparent]
    exact lastSegment_mem _ _
  · obtain ⟨pre, hpre⟩ := hsuffix
    rw [← hpre, lastSegment_append_cons (by simp)]
    exact lastSegment_of_clear (by simp)
  · rw [hdot] at hbase
    exact ⟨before, hbase.symm⟩

/-! ## Where localizing leads -/

/-- In a checked value something follows a `..` after a slash. -/
theorem not_parent {value before after : Text} (hvalue : ['.', '.'] ∉ value.splitOnP isSeparator)
    (h : value = before ++ ['/'] ++ (['.', '.'] ++ after)) : after ≠ [] ∧ after.head? ≠ some '/' := by
  rw [h, List.append_assoc, List.singleton_append, List.splitOnP_append_cons before _ (p := isSeparator) (by decide)] at hvalue
  constructor
  · rintro rfl
    exact hvalue (List.mem_append_right _ (by decide))
  · intro hhead
    obtain ⟨rest, rfl⟩ := List.head?_eq_some_iff.1 hhead
    refine hvalue (List.mem_append_right _ ?_)
    rw [List.splitOnP_append_cons_of_forall_mem (p := isSeparator) (by simp [isSeparator]) '/' (by decide)]
    exact List.mem_cons_self

theorem occurs_slash_iff {value : Text} (hvalue : ['.', '.'] ∉ value.splitOnP isSeparator) :
    Occurs ['/'] (Completes '/' n.localizations ['.', '.'] []) value ↔
      ∃ entry ∈ n.localizations, "/..".toList ++ entry.1 <:+: value := by
  constructor
  · intro h
    obtain ⟨before, -, heq, run, after, rfl, rfl, hstops⟩ := h
    obtain ⟨hnil, hhead⟩ := not_parent hvalue heq
    obtain hstop | hstop | ⟨entry, he, rest, rfl⟩ := hstops
    · exact absurd hstop hnil
    · exact absurd hstop hhead
    · exact ⟨entry, he, before, rest, by simp [heq]⟩
  · intro h
    obtain ⟨entry, he, before, rest, heq⟩ := h
    refine ⟨before, ['.', '.'] ++ (entry.1 ++ rest), by simp [← heq], ['.', '.'], _, rfl, rfl, .inr (.inr ⟨entry, he, ?_⟩)⟩
    exact List.prefix_append _ _

/-- A directory's last segment becomes a `..` only if it is a `.`, by another. -/
theorem completes_lastSegment_iff (h : Plain n) {base : Text × Text} (hb : base ∈ n.bases) (after : Text) :
    Completes '/' n.localizations ['.', '.'] (lastSegment (· == '/') base.2) after ↔
      ['/', '.'] <:+ base.2 ∧ ∃ rest, after = '.' :: rest ∧ Stops '/' n.localizations rest := by
  obtain ⟨hne, hparent, hsuffix⟩ := h.lastSegment hb
  rw [hsuffix]
  constructor
  · intro hc
    obtain ⟨run, rest, rfl, hrun, hstops⟩ := hc
    generalize lastSegment (· == '/') base.2 = last at *
    match last, run, hrun with
    | [], _, _ => exact absurd rfl hne
    | [_], [_], hrun =>
      cases hrun
      exact ⟨rfl, rest, rfl, hstops⟩
    | [_, _], [], hrun =>
      cases hrun
      exact absurd rfl hparent
  · intro hc
    obtain ⟨hlast, rest, rfl, hstops⟩ := hc
    exact ⟨['.'], rest, rfl, by rw [hlast]; rfl, hstops⟩

/-- Where a segment `..` comes from. -/
theorem begins_iff (h : Plain n) {value : Text} (hvalue : ['.', '.'] ∉ value.splitOnP isSeparator) :
    Begins '/' n.localizations ['.', '.'] value ↔
      (∃ entry ∈ n.localizations, "/..".toList ++ entry.1 <:+: value) ∨
      ∃ entry ∈ n.localizations, ['/', '.'] <:+ entry.2 ∧ ∃ before after, value = before ++ entry.1 ++ '.' :: after ∧
        Stops '/' n.localizations after := by
  unfold Begins
  refine or_congr (occurs_slash_iff hvalue) (exists_congr fun entry => and_congr_right fun he => ?_)
  have hb := PathNormalizer.mem_bases_of_mem_localizations he
  constructor
  · intro hoccurs
    obtain ⟨before, after, heq, hc⟩ := hoccurs
    obtain ⟨hsuffix, rest, rfl, hstops⟩ := (completes_lastSegment_iff h hb after).1 hc
    exact ⟨hsuffix, before, rest, heq, hstops⟩
  · intro hoccurs
    obtain ⟨hsuffix, before, rest, heq, hstops⟩ := hoccurs
    exact ⟨before, '.' :: rest, heq, (completes_lastSegment_iff h hb _).2 ⟨hsuffix, rest, rfl, hstops⟩⟩

/-- **A checked path stays inside its root's directory** exactly when no token
of it is put where the check did not look. -/
theorem localize_within_iff {given : List (Text × Text)} {value root : Text}
    (hvalid : validateNormalizedInputPath value = .ok ()) (hroot : root ∈ roots) (hunder : underRoot value root = true)
    (htokens : ∀ base ∈ (PathNormalizer.new given).bases, base.1 ∈ tokens)
    (habsolute : (PathNormalizer.new given).Absolute)
    (hparent : ∀ base ∈ (PathNormalizer.new given).bases, ['.', '.'] ∉ components base.2)
    (hincluded : root ∈ (PathNormalizer.new given).bases.map (·.1)) :
    Within (locate (PathNormalizer.new given).localizations root) ((PathNormalizer.new given).localize value) ↔
      StaysInside (PathNormalizer.new given) root value := by
  have hplain : Plain (PathNormalizer.new given) := {
    token := htokens
    absolute := habsolute
    noParent := hparent
    trimmed := fun base hb => by
      obtain ⟨-, b, -, rfl⟩ := PathNormalizer.mem_bases_new hb
      exact getLast_trimSlashes b.2 }
  generalize PathNormalizer.new given = n at *
  obtain ⟨base, hbase, rfl⟩ := List.mem_map.1 hincluded
  have hentry : (base.1, locate n.localizations base.1) ∈ n.localizations :=
    locate_mem (PathNormalizer.exists_localization hbase)
  obtain ⟨sep, rest, hvalue, hsep, hsegments⟩ := exists_separator hvalid hroot hunder
  have hdir := PathNormalizer.mem_bases_of_mem_localizations hentry
  have htokened := hplain.tokened
  have hsep' : sep ≠ '$' := fun heq => by rw [heq] at hsep; cases hsep
  have htokenNe : ∀ entry ∈ n.localizations, entry.1 ≠ [] := fun entry he =>
    codes_tokens.ne_nil _ (htokens entry (PathNormalizer.mem_bases_of_mem_localizations he))
  have hlocalize : n.localize value = locate n.localizations base.1 ++ sep :: decode n.localizations rest := by
    rw [PathNormalizer.localize_eq htokenNe, hvalue, decode_token htokened hentry, decode_cons htokened fun e he => htokened.not_prefix he hsep' _]
  have hparents : ['.', '.'] ∈ components (n.localize value) ↔ Begins '/' n.localizations ['.', '.'] value := by
    have hpaths : ∀ entry ∈ n.localizations, ['.', '.'] ∉ entry.2.splitOnP (· == '/') := fun entry he => by
      rw [← mem_components (by simp) (by simp)]
      exact hparent entry (PathNormalizer.mem_bases_of_mem_localizations he)
    have hstops : Stops '/' n.localizations value := .inr (.inr ⟨_, hentry, hvalue ▸ List.prefix_append _ _⟩)
    rw [mem_components (by simp) (by simp), PathNormalizer.localize_eq htokenNe]
    refine (mem_splitOnP_decode htokened (by decide) hpaths value List.not_mem_nil).trans (or_iff_right ?_)
    rw [completes_of_stops (by decide) htokened hstops]
    simp
  obtain ⟨hlast, -, hsuffix⟩ := hplain.lastSegment hdir
  have hslash : base.1 ++ ['/'] <+: value ↔ sep = '/' := by
    rw [hvalue, List.prefix_append_right_inj, List.cons_prefix_cons]
    simp [eq_comm]
  rw [Within, hparents, begins_iff hplain hsegments, hlocalize, startsWith_append_iff (habsolute _ hdir).1 hlast, ← hsuffix,
    ← hslash]
  constructor
  · intro h
    obtain ⟨hseparator, hno⟩ := h
    exact ⟨hseparator, fun entry he hin => hno (.inl ⟨entry, he, hin⟩), fun entry he hdot before after heq hstops =>
      hno (.inr ⟨entry, he, hdot, before, after, heq, hstops⟩)⟩
  · intro h
    refine ⟨h.separator, fun hin => ?_⟩
    obtain ⟨entry, he, hin⟩ | ⟨entry, he, hdot, before, after, heq, hstops⟩ := hin
    · exact h.noParent entry he hin
    · exact h.noDot entry he hdot before after heq hstops

/-- A checkout and a home directory. -/
def checkoutAndHome : List (Text × Text) := [(WORKSPACE, "/w".toList), (HOME, "/h".toList)]

theorem localize_within_source : Within "/w".toList
    ((PathNormalizer.new checkoutAndHome).localize "$WORKSPACE/src/$HOME.rs".toList) := by
  have hstays : StaysInside (PathNormalizer.new checkoutAndHome) WORKSPACE "$WORKSPACE/src/$HOME.rs".toList := {
    separator := .inl (by decide +kernel)
    noParent := by decide +kernel
    noDot := fun entry he hdot => absurd hdot ((by decide +kernel : ∀ entry ∈
      (PathNormalizer.new checkoutAndHome).localizations, ¬ ['/', '.'] <:+ entry.2) entry he) }
  exact (localize_within_iff (by decide +kernel) (by decide) (by decide +kernel) (by decide +kernel) (by decide +kernel)
    (by decide +kernel) (by decide +kernel)).2 hstays

/-- `$WORKSPACE/..$HOME/x`: what was the segment `..$HOME` is `..` and `h`. -/
theorem localize_escapes : ¬ ∀ (given : List (Text × Text)) (value root : Text),
    validateNormalizedInputPath value = .ok () → root ∈ roots → underRoot value root = true →
    (∀ base ∈ (PathNormalizer.new given).bases, base.1 ∈ tokens) → (PathNormalizer.new given).Absolute →
    (∀ base ∈ (PathNormalizer.new given).bases, ['.', '.'] ∉ components base.2) →
    root ∈ (PathNormalizer.new given).bases.map (·.1) →
    Within (locate (PathNormalizer.new given).localizations root) ((PathNormalizer.new given).localize value) := by
  intro h
  have hwithin := h checkoutAndHome "$WORKSPACE/..$HOME/x".toList WORKSPACE (by decide +kernel) (by decide) (by decide +kernel)
    (by decide +kernel) (by decide +kernel) (by decide +kernel) (by decide +kernel)
  revert hwithin
  decide +kernel

end Bellows.Cli
