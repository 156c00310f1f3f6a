/-
Normalizing text and reading it back (`PathNormalizer::normalize`,
`localize`, and the same on bytes): what a build script printed is stored with
tokens for the roots, and replayed with the roots of the checkout.

Each token stands for one spelling of its root (`localizations`), and nothing
marks a token that was in the text before: what comes back is what was there
exactly where no token was, and each root that was replaced is spelled as its
token is.
-/
import Bellows.Core.PathNormalizer
import Bellows.Lib.Spelling
import Bellows.Lib.Utf8
import Bellows.Lib.Windows

namespace Bellows.Core

open Text

def SANDBOX : Text := "$SANDBOX".toList

/-- The tokens of every normalizer. -/
def tokens : List Text := SANDBOX :: roots

/-- A Windows verbatim spelling. -/
def isVerbatim (path : Text) : Bool := "\\\\?\\".toList.isPrefixOf path

/-- The bytes of a string. -/
def utf8 (text : Text) : List UInt8 := text.flatMap String.utf8EncodeChar

/-- `replace_bytes`: an empty pattern is passed over. -/
def replaceBytes (input : List UInt8) (replacements : List (List UInt8 × List UInt8)) : List UInt8 :=
  replacements.foldl (fun value r => if h : r.1 = [] then value else Windows.replace r.1 r.2 value h) input

namespace PathNormalizer

/-- One round of the loop of `localizations`: the first spelling of a token,
but a later one for a verbatim one. -/
def addLocalization (base : Text × Text) : List (Text × Text) → List (Text × Text)
  | [] => [base]
  | entry :: chosen =>
    if entry.1 = base.1 then
      if isVerbatim entry.2 && !isVerbatim base.2 && !base.2.contains '/' then (entry.1, base.2) :: chosen
      else entry :: chosen
    else entry :: addLocalization base chosen

/-- The one spelling each token localizes to. -/
def localizations (n : PathNormalizer) : List (Text × Text) :=
  n.bases.foldl (fun chosen base => addLocalization base chosen) []

def localize (n : PathNormalizer) (value : Text) : Text :=
  n.localizations.foldl (fun text entry => replaceAll entry.1 entry.2 text) value

def normalizeBytes (n : PathNormalizer) (bytes : List UInt8) : List UInt8 :=
  replaceBytes bytes (n.bases.map fun base => (utf8 base.2, utf8 base.1))

def localizeBytes (n : PathNormalizer) (bytes : List UInt8) : List UInt8 :=
  replaceBytes bytes (n.localizations.map fun entry => (utf8 entry.1, utf8 entry.2))

/-! ## What comes back -/

/-- The text has no token, each root replaced in it is spelled as its token
localizes, and that spelling touches no token. -/
def KeepsText (n : PathNormalizer) (text : Text) : Prop := Faithful n.bases n.localizations text

/-- A spelling in bytes. -/
def bytesOf (base : Text × Text) : List UInt8 × List UInt8 := (utf8 base.1, utf8 base.2)

/-- The same, of bytes. -/
def KeepsBytes (n : PathNormalizer) (bytes : List UInt8) : Prop :=
  Faithful (n.bases.map bytesOf) (n.localizations.map bytesOf) bytes

instance (n : PathNormalizer) (text : Text) : Decidable (n.KeepsText text) :=
  inferInstanceAs (Decidable (Faithful _ _ _))

instance (n : PathNormalizer) (bytes : List UInt8) : Decidable (n.KeepsBytes bytes) :=
  inferInstanceAs (Decidable (Faithful _ _ _))

/-- Every root is an absolute path without a `$`. -/
def Absolute (n : PathNormalizer) : Prop := ∀ base ∈ n.bases, base.2.head? = some '/' ∧ '$' ∉ base.2

instance (n : PathNormalizer) : Decidable n.Absolute := inferInstanceAs (Decidable (∀ _ ∈ _, _))

/-! ## The bases of a normalizer -/

theorem mem_foldl_addBase {bases rendered : List (Text × Text)} {base : Text × Text}
    (h : base ∈ bases.foldl addBase rendered) :
    base ∈ rendered ∨ base.2 ≠ [] ∧ ∃ given ∈ bases, base = (given.1, trimSlashes given.2) := by
  induction bases generalizing rendered with
  | nil => exact .inl h
  | cons first bases ih =>
    rcases ih h with hmem | ⟨hne, given, hgiven, heq⟩
    · unfold addBase at hmem
      dsimp only at hmem
      split at hmem
      · next hnew =>
        rcases List.mem_append.1 hmem with hmem | hmem
        · exact .inl hmem
        · rw [List.mem_singleton.1 hmem]
          exact .inr ⟨hnew.1, first, List.mem_cons_self, rfl⟩
      · exact .inl hmem
    · exact .inr ⟨hne, given, List.mem_cons_of_mem _ hgiven, heq⟩

theorem mem_bases_new {bases : List (Text × Text)} {base : Text × Text} (h : base ∈ (new bases).bases) :
    base.2 ≠ [] ∧ ∃ given ∈ bases, base = (given.1, trimSlashes given.2) := by
  have hmem : base ∈ bases.foldl addBase [] := (List.mem_insertionSort _).1 h
  exact (mem_foldl_addBase hmem).resolve_left List.not_mem_nil

/-- Longest first. -/
theorem pairwise_bases_new (bases : List (Text × Text)) :
    (new bases).bases.Pairwise fun a b => utf8Len b.2 ≤ utf8Len a.2 :=
  haveI : Std.Total fun a b : Text × Text => utf8Len b.2 ≤ utf8Len a.2 := ⟨fun _ _ => le_total _ _⟩
  haveI : IsTrans (Text × Text) fun a b => utf8Len b.2 ≤ utf8Len a.2 := ⟨fun _ _ _ hab hbc => hbc.trans hab⟩
  List.pairwise_insertionSort _ _

/-! ## What tokens localize to -/

theorem mem_addLocalization {base entry : Text × Text} {chosen : List (Text × Text)}
    (h : entry ∈ addLocalization base chosen) : entry = base ∨ entry ∈ chosen := by
  induction chosen with
  | nil => exact .inl (List.mem_singleton.1 h)
  | cons first chosen ih =>
    unfold addLocalization at h
    split at h
    · next heq =>
      split at h
      · rcases List.mem_cons.1 h with h | h
        · rw [heq] at h
          exact .inl h
        · exact .inr (List.mem_cons_of_mem _ h)
      · exact .inr h
    · rcases List.mem_cons.1 h with h | h
      · exact .inr (h ▸ List.mem_cons_self)
      · exact (ih h).imp_right (List.mem_cons_of_mem _)

theorem keys_addLocalization (base : Text × Text) (chosen : List (Text × Text)) :
    (addLocalization base chosen).map (·.1) =
      if base.1 ∈ chosen.map (·.1) then chosen.map (·.1) else chosen.map (·.1) ++ [base.1] := by
  induction chosen with
  | nil => rfl
  | cons first chosen ih =>
    unfold addLocalization
    by_cases heq : first.1 = base.1
    · have hmem : base.1 ∈ (first :: chosen).map (·.1) := heq ▸ List.mem_cons_self
      rw [if_pos heq, if_pos hmem]
      split <;> rfl
    · rw [if_neg heq, List.map_cons, List.map_cons, ih]
      simp only [List.mem_cons, Ne.symm heq, false_or]
      split <;> rfl

/-- Where no spelling is verbatim, the first one stays. -/
theorem addLocalization_of_ordinary {base : Text × Text} {chosen : List (Text × Text)}
    (h : ∀ entry ∈ chosen, isVerbatim entry.2 = false) {entry : Text × Text} (hmem : entry ∈ chosen) :
    entry ∈ addLocalization base chosen := by
  induction chosen with
  | nil => cases hmem
  | cons first chosen ih =>
    have hfirst := h first List.mem_cons_self
    unfold addLocalization
    simp only [hfirst, Bool.false_and, Bool.false_eq_true, if_false]
    split
    · exact hmem
    · rcases List.mem_cons.1 hmem with rfl | hmem
      · exact List.mem_cons_self
      · exact List.mem_cons_of_mem _ (ih (fun e he => h e (List.mem_cons_of_mem _ he)) hmem)

theorem foldl_addLocalization_spec (bases : List (Text × Text)) {chosen : List (Text × Text)}
    (hnodup : (chosen.map (·.1)).Nodup) :
    ((bases.foldl (fun chosen base => addLocalization base chosen) chosen).map (·.1)).Nodup ∧
      (∀ entry ∈ bases.foldl (fun chosen base => addLocalization base chosen) chosen, entry ∈ chosen ∨ entry ∈ bases) ∧
      ∀ token, token ∈ chosen.map (·.1) ∨ token ∈ bases.map (·.1) →
        token ∈ (bases.foldl (fun chosen base => addLocalization base chosen) chosen).map (·.1) := by
  induction bases generalizing chosen with
  | nil => exact ⟨hnodup, fun _ h => .inl h, fun _ h => h.resolve_right List.not_mem_nil⟩
  | cons base bases ih =>
    have hkeys := keys_addLocalization base chosen
    have hmem : ∀ token, token ∈ (addLocalization base chosen).map (·.1) ↔ token ∈ chosen.map (·.1) ∨ token = base.1 := by
      intro token
      rw [hkeys]
      split
      · next h => exact ⟨.inl, fun ht => ht.elim id fun heq => heq ▸ h⟩
      · rw [List.mem_append, List.mem_singleton]
    have hnodup' : ((addLocalization base chosen).map (·.1)).Nodup := by
      rw [hkeys]
      split
      · exact hnodup
      · next h =>
        refine List.nodup_append.2 ⟨hnodup, List.nodup_singleton _, fun a ha b hb => ?_⟩
        rw [List.mem_singleton.1 hb]
        exact fun heq => h (heq ▸ ha)
    obtain ⟨h1, h2, h3⟩ := ih hnodup'
    refine ⟨h1, fun entry he => ?_, fun token ht => h3 token ?_⟩
    · rcases h2 entry he with he | he
      · exact (mem_addLocalization he).elim (fun h => .inr (h ▸ List.mem_cons_self)) .inl
      · exact .inr (List.mem_cons_of_mem _ he)
    · rw [hmem]
      rcases ht with ht | ht
      · exact .inl (.inl ht)
      · rcases List.mem_cons.1 ht with ht | ht
        · exact .inl (.inr ht)
        · exact .inr ht

variable {n : PathNormalizer}

/-- What `localizations` chooses from nothing. -/
theorem localizations_spec (n : PathNormalizer) : (n.localizations.map (·.1)).Nodup ∧
    (∀ entry ∈ n.localizations, entry ∈ ([] : List (Text × Text)) ∨ entry ∈ n.bases) ∧
    ∀ token, token ∈ ([] : List (Text × Text)).map (·.1) ∨ token ∈ n.bases.map (·.1) →
      token ∈ n.localizations.map (·.1) :=
  foldl_addLocalization_spec n.bases List.nodup_nil

theorem nodup_localizations (n : PathNormalizer) : (n.localizations.map (·.1)).Nodup := n.localizations_spec.1

theorem mem_bases_of_mem_localizations {entry : Text × Text} (h : entry ∈ n.localizations) : entry ∈ n.bases :=
  (n.localizations_spec.2.1 entry h).resolve_left List.not_mem_nil

theorem exists_localization {base : Text × Text} (h : base ∈ n.bases) : ∃ entry ∈ n.localizations, entry.1 = base.1 := by
  have hmem := n.localizations_spec.2.2 base.1 (.inr (List.mem_map_of_mem h))
  obtain ⟨entry, he, heq⟩ := List.mem_map.1 hmem
  exact ⟨entry, he, heq⟩

/-- **A token localizes to the longest spelling of its root**, where no
spelling is verbatim. -/
theorem utf8Len_le_locate (hsorted : n.bases.Pairwise fun a b => utf8Len b.2 ≤ utf8Len a.2)
    (hplain : ∀ base ∈ n.bases, isVerbatim base.2 = false) :
    ∀ base ∈ n.bases, utf8Len base.2 ≤ utf8Len (locate n.localizations base.1) := by
  -- the entries stay as the spellings after them are passed over
  have hstays : ∀ (bases chosen : List (Text × Text)), (∀ base ∈ bases, isVerbatim base.2 = false) →
      (∀ entry ∈ chosen, isVerbatim entry.2 = false) → (∀ entry ∈ chosen, ∀ base ∈ bases, utf8Len base.2 ≤ utf8Len entry.2) →
      bases.Pairwise (fun a b => utf8Len b.2 ≤ utf8Len a.2) →
      (∀ entry ∈ chosen, entry ∈ bases.foldl (fun chosen base => addLocalization base chosen) chosen) ∧
      ∀ base ∈ bases, ∃ entry ∈ bases.foldl (fun chosen base => addLocalization base chosen) chosen,
        entry.1 = base.1 ∧ utf8Len base.2 ≤ utf8Len entry.2 := by
    intro bases
    induction bases with
    | nil => exact fun chosen _ _ _ _ => ⟨fun _ h => h, fun _ h => absurd h List.not_mem_nil⟩
    | cons first bases ih =>
      intro chosen hb hc hle hp
      obtain ⟨hfirst, hp⟩ := List.pairwise_cons.1 hp
      have hmem : ∀ entry ∈ addLocalization first chosen, entry = first ∨ entry ∈ chosen := fun _ => mem_addLocalization
      obtain ⟨h1, h2⟩ := ih (addLocalization first chosen) (fun b h => hb b (List.mem_cons_of_mem _ h))
        (fun entry he => (hmem entry he).elim (fun h => h ▸ hb first List.mem_cons_self) (hc entry))
        (fun entry he base hbase => (hmem entry he).elim (fun h => h ▸ hfirst base hbase) fun h =>
          hle entry h base (List.mem_cons_of_mem _ hbase)) hp
      refine ⟨fun entry he => h1 entry (addLocalization_of_ordinary hc he), fun base hbase => ?_⟩
      rcases List.mem_cons.1 hbase with rfl | hbase
      · have hkey : base.1 ∈ (addLocalization base chosen).map (·.1) := by
          rw [keys_addLocalization]
          split
          · assumption
          · simp
        obtain ⟨entry, he, heq⟩ := List.mem_map.1 hkey
        refine ⟨entry, h1 entry he, heq, ?_⟩
        rcases hmem entry he with rfl | hentry
        · exact le_rfl
        · exact hle entry hentry base List.mem_cons_self
      · exact h2 base hbase
  intro base hbase
  obtain ⟨entry, he, heq, hle⟩ := (hstays n.bases [] hplain (fun _ h => absurd h List.not_mem_nil)
    (fun _ h => absurd h List.not_mem_nil) hsorted).2 base hbase
  rw [← heq, locate_eq (nodup_localizations n) he]
  exact hle

end PathNormalizer

/-! ## Bytes -/

theorem codes_tokens : Codes tokens := by decide +kernel

theorem codes_utf8_tokens : Codes (tokens.map utf8) := by decide +kernel

theorem utf8_inj_tokens : ∀ a ∈ tokens, ∀ b ∈ tokens, utf8 a = utf8 b → a = b := by decide +kernel

theorem token_dollar : ∀ token ∈ tokens, token.head? = some '$' ∧ '/' ∉ token := by decide +kernel

theorem utf8_token_dollar : ∀ token ∈ tokens, (utf8 token).head? = some 36 ∧ 47 ∉ utf8 token := by decide +kernel

theorem length_utf8 (text : Text) : (utf8 text).length = utf8Len text := by
  induction text with
  | nil => rfl
  | cons c text ih =>
    show (String.utf8EncodeChar c ++ utf8 text).length = _
    rw [List.length_append, ih, String.length_utf8EncodeChar]
    simp [utf8Len]

theorem utf8_append (a b : Text) : utf8 (a ++ b) = utf8 a ++ utf8 b := List.flatMap_append

theorem utf8_cons (c : Char) (text : Text) : utf8 (c :: text) = String.utf8EncodeChar c ++ utf8 text := rfl

theorem utf8_head {text : Text} (h : text.head? = some '/') : (utf8 text).head? = some 47 := by
  obtain ⟨rest, rfl⟩ := List.head?_eq_some_iff.1 h
  rfl

theorem utf8_ne_nil {text : Text} (h : text ≠ []) : utf8 text ≠ [] := by
  intro hnil
  cases text with
  | nil => exact h rfl
  | cons c text =>
    have := (List.append_eq_nil_iff.1 (show String.utf8EncodeChar c ++ utf8 text = [] from hnil)).1
    exact String.utf8EncodeChar_ne_nil this

theorem replaceBytes_eq_foldl {replacements : List (List UInt8 × List UInt8)} (h : ∀ r ∈ replacements, r.1 ≠ [])
    (input : List UInt8) :
    replaceBytes input replacements = replacements.foldl (fun value r => replace r.1 r.2 value) input := by
  induction replacements generalizing input with
  | nil => rfl
  | cons r replacements ih =>
    have hr := h r List.mem_cons_self
    have hstep : replaceBytes input (r :: replacements) = replaceBytes (replace r.1 r.2 input) replacements := by
      rw [← Windows.replace_eq r.1 r.2 input hr, replaceBytes, List.foldl_cons, dif_neg hr]
      rfl
    rw [hstep, ih fun r' hr' => h r' (List.mem_cons_of_mem _ hr'), List.foldl_cons]

namespace PathNormalizer

/-! ## Normalizing and localizing -/

variable {n : PathNormalizer}

theorem normalizeBytes_eq (hne : ∀ base ∈ n.bases, base.2 ≠ []) (bytes : List UInt8) :
    n.normalizeBytes bytes = encode (n.bases.map bytesOf) bytes := by
  rw [normalizeBytes, replaceBytes_eq_foldl, encode, List.foldl_map, List.foldl_map]
  · rfl
  · intro r hr
    obtain ⟨base, hb, rfl⟩ := List.mem_map.1 hr
    exact utf8_ne_nil (hne base hb)

theorem localizeBytes_eq (hne : ∀ entry ∈ n.localizations, entry.1 ≠ []) (bytes : List UInt8) :
    n.localizeBytes bytes = decode (n.localizations.map bytesOf) bytes := by
  rw [localizeBytes, replaceBytes_eq_foldl]
  · rfl
  · intro r hr
    obtain ⟨entry, he, rfl⟩ := List.mem_map.1 hr
    exact utf8_ne_nil (hne entry he)

theorem localize_eq (hne : ∀ entry ∈ n.localizations, entry.1 ≠ []) (text : Text) :
    n.localize text = decode n.localizations text := by
  rw [localize, decode]
  generalize n.localizations = entries at hne
  induction entries generalizing text with
  | nil => rfl
  | cons entry entries ih =>
    have hrest : ∀ e ∈ entries, e.1 ≠ [] := fun e he => hne e (List.mem_cons_of_mem _ he)
    rw [List.foldl_cons, List.foldl_cons, ih _ hrest, replaceAll, if_neg (hne entry List.mem_cons_self)]

/-- What `new` makes of roots with the known tokens. -/
structure Built (n : PathNormalizer) : Prop where
  token : ∀ base ∈ n.bases, base.1 ∈ tokens
  nonempty : ∀ base ∈ n.bases, base.2 ≠ []
  sorted : n.bases.Pairwise fun a b => utf8Len b.2 ≤ utf8Len a.2

theorem built_new {bases : List (Text × Text)} (h : ∀ base ∈ bases, base.1 ∈ tokens) : (new bases).Built where
  token := by
    intro base hb
    obtain ⟨-, given, hgiven, rfl⟩ := mem_bases_new hb
    exact h given hgiven
  nonempty := fun base hb => (mem_bases_new hb).1
  sorted := pairwise_bases_new bases

namespace Built

theorem entry_token (h : n.Built) : ∀ entry ∈ n.localizations, entry.1 ∈ tokens := fun entry he =>
  h.token entry (mem_bases_of_mem_localizations he)

theorem codes (h : n.Built) : Codes (n.localizations.map (·.1)) := by
  refine codes_tokens.of_subset fun t ht => ?_
  obtain ⟨entry, he, rfl⟩ := List.mem_map.1 ht
  exact h.entry_token entry he

theorem codes_bytes (h : n.Built) : Codes ((n.localizations.map bytesOf).map (·.1)) := by
  refine codes_utf8_tokens.of_subset fun t ht => ?_
  obtain ⟨bytes, hb, rfl⟩ := List.mem_map.1 ht
  obtain ⟨entry, he, rfl⟩ := List.mem_map.1 hb
  exact List.mem_map_of_mem (h.entry_token entry he)

theorem nodup_bytes (h : n.Built) : ((n.localizations.map bytesOf).map (·.1)).Nodup := by
  have hmap : (n.localizations.map bytesOf).map (·.1) = (n.localizations.map (·.1)).map utf8 := by
    rw [List.map_map, List.map_map]
    rfl
  rw [hmap]
  refine List.Nodup.map_on (fun a ha b hb heq => ?_) (nodup_localizations n)
  obtain ⟨entry, he, rfl⟩ := List.mem_map.1 ha
  obtain ⟨entry', he', rfl⟩ := List.mem_map.1 hb
  exact utf8_inj_tokens _ (h.entry_token entry he) _ (h.entry_token entry' he') heq

/-- A root's spelling is no longer than the one its token localizes to. -/
theorem longest (h : n.Built) (habs : n.Absolute) : ∀ base ∈ n.bases, utf8Len base.2 ≤ utf8Len (locate n.localizations base.1) := by
  refine utf8Len_le_locate h.sorted fun base hb => ?_
  obtain ⟨rest, hrest⟩ := List.head?_eq_some_iff.1 (habs base hb).1
  rw [hrest]
  rfl

theorem rooted (h : n.Built) (habs : n.Absolute) : Rooted '/' '$' n.bases where
  token_head := fun base hb => (token_dollar base.1 (h.token base hb)).1
  token_rootless := fun base hb => (token_dollar base.1 (h.token base hb)).2
  word_head := fun base hb => (habs base hb).1
  word_clear := fun base hb => (habs base hb).2

theorem rooted_bytes (h : n.Built) (habs : n.Absolute) : Rooted 47 36 (n.bases.map bytesOf) := by
  have hmem : ∀ bytes ∈ n.bases.map bytesOf, ∃ base ∈ n.bases, bytesOf base = bytes := fun _ => List.mem_map.1
  constructor <;> intro bytes hbytes <;> obtain ⟨base, hb, rfl⟩ := hmem bytes hbytes
  · exact (utf8_token_dollar base.1 (h.token base hb)).1
  · exact (utf8_token_dollar base.1 (h.token base hb)).2
  · exact utf8_head (habs base hb).1
  · exact Utf8.not_mem_encode rfl (by decide) (habs base hb).2

theorem token_nonempty (h : n.Built) : ∀ entry ∈ n.localizations, entry.1 ≠ [] := fun entry he =>
  codes_tokens.ne_nil _ (h.entry_token entry he)

theorem localize_normalize (h : n.Built) {text : Text} (hkeeps : n.KeepsText text) :
    n.localize (n.normalize text) = text := by
  rw [localize_eq h.token_nonempty]
  exact decode_encode h.nonempty h.codes (nodup_localizations n) hkeeps

theorem keepsText_of_localize (h : n.Built) (habs : n.Absolute) {text : Text}
    (heq : n.localize (n.normalize text) = text) : n.KeepsText text := by
  rw [localize_eq h.token_nonempty] at heq
  exact faithful_of_decode_encode (w := Char.utf8Size) Char.utf8Size_pos (h.rooted habs) h.codes
    (fun _ => mem_bases_of_mem_localizations) (fun _ => exists_localization) (h.longest habs) heq

theorem localizeBytes_normalizeBytes (h : n.Built) {bytes : List UInt8} (hkeeps : n.KeepsBytes bytes) :
    n.localizeBytes (n.normalizeBytes bytes) = bytes := by
  rw [normalizeBytes_eq h.nonempty, localizeBytes_eq h.token_nonempty]
  refine decode_encode (fun bytes hbytes => ?_) h.codes_bytes h.nodup_bytes hkeeps
  obtain ⟨base, hb, rfl⟩ := List.mem_map.1 hbytes
  exact utf8_ne_nil (h.nonempty base hb)

theorem keepsBytes_of_localizeBytes (h : n.Built) (habs : n.Absolute) {bytes : List UInt8}
    (heq : n.localizeBytes (n.normalizeBytes bytes) = bytes) : n.KeepsBytes bytes := by
  rw [normalizeBytes_eq h.nonempty, localizeBytes_eq h.token_nonempty] at heq
  refine faithful_of_decode_encode (w := fun _ => 1) (fun _ => Nat.one_pos) (h.rooted_bytes habs) h.codes_bytes
    ?_ ?_ ?_ heq
  · intro bytes hbytes
    obtain ⟨entry, he, rfl⟩ := List.mem_map.1 hbytes
    exact List.mem_map_of_mem (mem_bases_of_mem_localizations he)
  · intro bytes hbytes
    obtain ⟨base, hb, rfl⟩ := List.mem_map.1 hbytes
    obtain ⟨entry, he, hentry⟩ := exists_localization hb
    exact ⟨bytesOf entry, List.mem_map_of_mem he, congrArg utf8 hentry⟩
  · intro bytes hbytes
    obtain ⟨base, hb, rfl⟩ := List.mem_map.1 hbytes
    obtain ⟨entry, he, hentry⟩ := exists_localization hb
    have hweight : ∀ bytes : List UInt8, weight (fun _ => 1) bytes = bytes.length := by
      intro bytes
      simp [weight]
    have hlocate : locate (n.localizations.map bytesOf) (bytesOf base).1 = utf8 entry.2 := by
      have hsame : (bytesOf base).1 = (bytesOf entry).1 := congrArg utf8 hentry.symm
      rw [hsame, locate_eq h.nodup_bytes (List.mem_map_of_mem he)]
      rfl
    have hlongest := h.longest habs base hb
    rw [← hentry, locate_eq (nodup_localizations n) he] at hlongest
    rw [hweight, hweight, hlocate, length_utf8]
    exact (length_utf8 base.2).trans_le hlongest

end Built

/-- **What is normalized comes back as it was** if it holds no token, and each
root replaced in it is spelled as its token localizes and touches no token;
where the roots are absolute paths without a `$`, only then. -/
theorem localize_normalize_iff {bases : List (Text × Text)} (h : ∀ base ∈ bases, base.1 ∈ tokens) :
    (∀ text, ((new bases).KeepsText text → (new bases).localize ((new bases).normalize text) = text) ∧
      ((new bases).Absolute →
        ((new bases).localize ((new bases).normalize text) = text ↔ (new bases).KeepsText text))) ∧
    ∀ bytes, ((new bases).KeepsBytes bytes →
        (new bases).localizeBytes ((new bases).normalizeBytes bytes) = bytes) ∧
      ((new bases).Absolute →
        ((new bases).localizeBytes ((new bases).normalizeBytes bytes) = bytes ↔ (new bases).KeepsBytes bytes)) := by
  have hb := built_new h
  refine ⟨fun text => ⟨hb.localize_normalize, fun habs => ⟨hb.keepsText_of_localize habs, hb.localize_normalize⟩⟩,
    fun bytes => ⟨hb.localizeBytes_normalizeBytes, fun habs => ⟨hb.keepsBytes_of_localizeBytes habs,
      hb.localizeBytes_normalizeBytes⟩⟩⟩

def homeAndWorkspace : List (Text × Text) :=
  [(HOME, "/home/alice".toList), (WORKSPACE, "/home/alice/code/app".toList)]

theorem localize_normalize_homeAndWorkspace :
    (new homeAndWorkspace).localize ((new homeAndWorkspace).normalize
      "/home/alice/code/app/src/lib.rs:/home/alice/.cargo".toList) =
        "/home/alice/code/app/src/lib.rs:/home/alice/.cargo".toList ∧
    (new homeAndWorkspace).localizeBytes ((new homeAndWorkspace).normalizeBytes (utf8 "$HOME".toList)) ≠
      utf8 "$HOME".toList := by
  have h := localize_normalize_iff (by decide +kernel : ∀ base ∈ homeAndWorkspace, base.1 ∈ tokens)
  refine ⟨(h.1 _).1 (by decide +kernel), fun heq => ?_⟩
  exact absurd (((h.2 _).2 (by decide +kernel)).1 heq) (by decide +kernel)

/-- A script that prints a token's name. -/
theorem printedToken_not_localized :
    ¬ ∀ bases : List (Text × Text), (∀ base ∈ bases, base.1 ∈ tokens) → ∀ bytes,
      (new bases).localizeBytes ((new bases).normalizeBytes bytes) = bytes := by
  intro h
  exact absurd (h homeAndWorkspace (by decide +kernel) (utf8 "cargo:warning=set $HOME first\n".toList))
    (by decide +kernel)

-- a second spelling of a root comes back as the first
example : (new [(TARGET, "/private/tmp/target".toList), (TARGET, "/tmp/target".toList)]).localize
    ((new [(TARGET, "/private/tmp/target".toList), (TARGET, "/tmp/target".toList)]).normalize "-L /tmp/target".toList) =
      "-L /private/tmp/target".toList := by
  decide +kernel

end PathNormalizer

end Bellows.Core
