/-
Replacing in bytes is replacing in text (`replace_bytes` beside
`str::replace`): a text's bytes are found in another's only where the text is,
so compiler streams and build-script streams are rewritten alike. Only an empty
pattern tells them apart: the bytes' loop passes over it, `str::replace` finds
it around every character.
-/
import Bellows.Core.Localize
import Bellows.Lib.Marks
import Bellows.Lib.Utf8

namespace Bellows.Core

open Text

theorem replace_utf8 {pat : Text} (into : Text) (hpat : pat ≠ []) (text : Text) :
    replace (utf8 pat) (utf8 into) (utf8 text) = utf8 (replace pat into text) := by
  have hbytes : utf8 pat ≠ [] := utf8_ne_nil hpat
  refine replace_induction into hpat (P := fun a b => replace (utf8 pat) (utf8 into) (utf8 a) = utf8 b) ?_ ?_ ?_ text
  · rfl
  · intro rest ih
    rw [utf8_append, replace_self_append _ _ hbytes, ih, utf8_append]
  · intro c rest hnot ih
    have hclear : ∀ s, s <:+ String.utf8EncodeChar c → s ≠ [] → ¬ utf8 pat <+: s ++ utf8 rest :=
      Utf8.not_prefix_encode hpat hnot
    rw [utf8_cons, replace_append_of_clear _ hclear, ih, utf8_cons]

/-- Where the search finds a text's bytes, the text is: no character is split. -/
theorem exists_cut_of_position {pat text : Text} {pos : Nat} (hpat : pat ≠ [])
    (h : Windows.position (utf8 pat) (utf8 text) = some pos) :
    ∃ before after, text = before ++ pat ++ after ∧ pos = (utf8 before).length := by
  obtain ⟨before, after, htext, hlen, -⟩ := Windows.position_eq_some h
  obtain ⟨front, rest, hcut, rfl⟩ := Utf8.exists_cut hpat htext
  exact ⟨front, rest, hcut, hlen.symm⟩

theorem replaceBytes_utf8 {replacements : List (Text × Text)} (h : ∀ r ∈ replacements, r.1 ≠ []) (text : Text) :
    replaceBytes (utf8 text) (replacements.map fun r => (utf8 r.1, utf8 r.2)) =
      utf8 (replacements.foldl (fun value r => replaceAll r.1 r.2 value) text) := by
  have hbytes : ∀ r ∈ replacements.map fun r => (utf8 r.1, utf8 r.2), r.1 ≠ [] := by
    intro r hr
    obtain ⟨r', hr', rfl⟩ := List.mem_map.1 hr
    exact utf8_ne_nil (h r' hr')
  rw [replaceBytes_eq_foldl hbytes]
  clear hbytes
  induction replacements generalizing text with
  | nil => rfl
  | cons r replacements ih =>
    have hr := h r List.mem_cons_self
    rw [List.map_cons, List.foldl_cons, List.foldl_cons, replace_utf8 r.2 hr,
      ih (fun r' hr' => h r' (List.mem_cons_of_mem _ hr')), replaceAll, if_neg hr]

namespace PathNormalizer

theorem normalizeBytes_utf8 (bases : List (Text × Text)) (text : Text) :
    (new bases).normalizeBytes (utf8 text) = utf8 ((new bases).normalize text) := by
  have hpaths : ∀ base ∈ (new bases).bases, base.2 ≠ [] := fun base hb => (mem_bases_new hb).1
  rw [normalizeBytes_eq hpaths, encode, normalize]
  generalize (new bases).bases = roots at hpaths
  induction roots generalizing text with
  | nil => rfl
  | cons root roots ih =>
    have hroot := hpaths root List.mem_cons_self
    rw [List.map_cons, List.foldl_cons, List.foldl_cons, bytesOf, replace_utf8 root.1 hroot,
      ih _ fun base hb => hpaths base (List.mem_cons_of_mem _ hb)]

/-- Streams are normalized and localized as bytes as they are as text, each
search finding a text only where it is, if no token is empty. -/
theorem transformBytes_utf8 {bases : List (Text × Text)} (htokens : ∀ base ∈ bases, base.1 ≠ []) (text : Text) :
    (new bases).normalizeBytes (utf8 text) = utf8 ((new bases).normalize text) ∧
    (new bases).localizeBytes (utf8 text) = utf8 ((new bases).localize text) ∧
    (∀ replacements : List (Text × Text), (∀ r ∈ replacements, r.1 ≠ []) →
      replaceBytes (utf8 text) (replacements.map fun r => (utf8 r.1, utf8 r.2)) =
        utf8 (replacements.foldl (fun value r => replaceAll r.1 r.2 value) text)) ∧
    ∀ pat pos, pat ≠ [] → Windows.position (utf8 pat) (utf8 text) = some pos →
      ∃ before after, text = before ++ pat ++ after ∧ pos = (utf8 before).length := by
  have hentries : ∀ entry ∈ (new bases).localizations, entry.1 ≠ [] := by
    intro entry he
    obtain ⟨-, base, hb, rfl⟩ := mem_bases_new (mem_bases_of_mem_localizations he)
    exact htokens base hb
  refine ⟨normalizeBytes_utf8 bases text, ?_, fun replacements h => replaceBytes_utf8 h text,
    fun pat pos hpat h => exists_cut_of_position hpat h⟩
  rw [localizeBytes, localize]
  exact replaceBytes_utf8 hentries text

/-- A path printed twice, with a character of two bytes between. -/
theorem transformBytes_path :
    (new [(WORKSPACE, "/w".toList)]).normalizeBytes (utf8 "/w/é/w".toList) =
      utf8 ((new [(WORKSPACE, "/w".toList)]).normalize "/w/é/w".toList) :=
  (transformBytes_utf8 (by decide) "/w/é/w".toList).1

/-- The empty token: passed over in bytes, found around each character of text. -/
theorem localizeBytes_emptyToken : ¬ ∀ (bases : List (Text × Text)) (text : Text),
    (new bases).localizeBytes (utf8 text) = utf8 ((new bases).localize text) := by
  intro h
  have hsame := h [([], "/w".toList)] "a".toList
  revert hsame
  decide +kernel

end PathNormalizer

end Bellows.Core
