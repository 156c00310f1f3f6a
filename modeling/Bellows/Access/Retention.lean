/-
What the access journal keeps: a collection whose steps are safe gives no
unit an earlier last use than one recorded for it before.

Every mark is told by a file that will still be there when the running
collection ends (`Kept.marks`). While a collection reads, what a file that it
may remove tells is among the uses read, or the file is still to be read
(`ReadSoFar`): so whatever a compaction removes, a line of the new file tells
as late a use.
-/
import Bellows.Access.System

namespace Bellows.Access

open Bellows.Core

/-! ## Files -/

namespace Files

variable {f : Files}

/-- A file under one of these names tells of as late a use. -/
def Tells (f : Files) (among : FileName → Prop) (mark : Mark) : Prop :=
  ∃ name file, among name ∧ f.names.lookup name = some file ∧ mark.ToldBy (wholeUses (f.contents file))

/-- Each name stands for a file of its own. -/
structure Linked (f : Files) : Prop where
  fresh : ∀ (name : FileName) (file : Nat), f.names.lookup name = some file → file < f.next
  separate : ∀ (a b : FileName) (file : Nat), f.names.lookup a = some file → f.names.lookup b = some file → a = b

/-- What has a name keeps it, and tells what it told. -/
def Grows (f f' : Files) : Prop :=
  ∀ name file, f.names.lookup name = some file →
    f'.names.lookup name = some file ∧ ∀ use ∈ wholeUses (f.contents file), use ∈ wholeUses (f'.contents file)

theorem Tells.imp {p q : FileName → Prop} {mark : Mark} (h : f.Tells p mark) (hpq : ∀ name, p name → q name) :
    f.Tells q mark := by
  obtain ⟨name, file, hp, hfile, htold⟩ := h
  exact ⟨name, file, hpq name hp, hfile, htold⟩

theorem Tells.grows {f' : Files} {p : FileName → Prop} {mark : Mark} (h : f.Tells p mark) (hg : f.Grows f') :
    f'.Tells p mark := by
  obtain ⟨name, file, hp, hfile, use, hu, hkeys⟩ := h
  obtain ⟨hfile', htell⟩ := hg name file hfile
  exact ⟨name, file, hp, hfile', use, htell use hu, hkeys⟩

theorem Grows.refl (f : Files) : f.Grows f := fun _ _ h => ⟨h, fun _ hu => hu⟩

theorem text_of_lookup {name : FileName} {file : Nat} (h : f.names.lookup name = some file) :
    f.text name = f.contents file := by
  rw [text, h]
  rfl

/-! ### A new file -/

variable {name : FileName} {text : Text}

theorem lookup_create (name' : FileName) : (f.create name text).names.lookup name' =
    if name' = name then some f.next else f.names.lookup name' :=
  Assoc.lookup_insert_eq_ite _ _ _ _

theorem contents_create_next : (f.create name text).contents f.next = text := Function.update_self ..

theorem contents_create_of_lt {file : Nat} (h : file < f.next) : (f.create name text).contents file = f.contents file :=
  Function.update_of_ne (by omega) _ _

theorem Linked.empty : empty.Linked := by
  constructor
  · intro _ _ h
    cases h
  · intro _ _ _ h
    cases h

theorem Linked.create (h : f.Linked) : (f.create name text).Linked := by
  constructor
  · intro n file hn
    rw [lookup_create] at hn
    split at hn
    · cases hn
      exact Nat.lt_succ_self _
    · exact Nat.lt_succ_of_lt (h.fresh n file hn)
  · intro a b file ha hb
    rw [lookup_create] at ha hb
    split at ha <;> split at hb
    · next ha' hb' => rw [ha', hb']
    · cases ha
      exact absurd (h.fresh b _ hb) (Nat.lt_irrefl _)
    · cases hb
      exact absurd (h.fresh a _ ha) (Nat.lt_irrefl _)
    · exact h.separate a b file ha hb

theorem Linked.create_grows (h : f.Linked) (hnew : f.names.lookup name = none) : f.Grows (f.create name text) := by
  intro name' file hfile
  have hne : name' ≠ name := by
    intro heq
    rw [heq, hnew] at hfile
    cases hfile
  rw [lookup_create, if_neg hne, contents_create_of_lt (h.fresh name' file hfile)]
  exact ⟨hfile, fun use hu => hu⟩

/-! ### Opening and appending -/

theorem open'_cases : f.open'.2 = f ∨ (f.names.lookup .log = none ∧ f.open'.2 = f.create .log []) := by
  unfold open'
  split
  · exact .inl rfl
  · next h => exact .inr ⟨h, rfl⟩

theorem Linked.append (h : f.Linked) (file : Nat) (text : Text) : (f.append file text).Linked :=
  ⟨h.fresh, h.separate⟩

theorem contents_append_self (file : Nat) : (f.append file text).contents file = f.contents file ++ text :=
  Function.update_self ..

theorem contents_append_ne {file file' : Nat} (h : file' ≠ file) :
    (f.append file text).contents file' = f.contents file' :=
  Function.update_of_ne h _ _

theorem append_grows (file : Nat) : f.Grows (f.append file text) := by
  intro name' file' hfile
  refine ⟨hfile, fun use hu => ?_⟩
  rcases eq_or_ne file' file with heq | hne
  · subst heq
    obtain ⟨more, hmore⟩ := wholeUses_append (f.contents file') text
    rw [contents_append_self, hmore]
    exact List.mem_append_left _ hu
  · rw [contents_append_ne hne]
    exact hu

/-! ### Renaming and removing -/

theorem lookup_rotate {now pid : Nat} {log : Nat} (h : f.names.lookup .log = some log) (name' : FileName) :
    (f.rotate now pid).names.lookup name' =
      if name' = .rotated now pid then some log else if name' = .log then none else f.names.lookup name' := by
  rw [rotate, h]
  show (AList.insert _ _ _).lookup _ = _
  rw [Assoc.lookup_insert_eq_ite, Assoc.lookup_erase_eq_ite]

theorem contents_rotate (now pid : Nat) : (f.rotate now pid).contents = f.contents := by
  unfold rotate
  split <;> rfl

theorem Linked.rotate (h : f.Linked) (now pid : Nat) : (f.rotate now pid).Linked := by
  rcases hlog : f.names.lookup .log with _ | log
  · rwa [Files.rotate, hlog]
  have hnext : (f.rotate now pid).next = f.next := by
    rw [Files.rotate, hlog]
  constructor
  · intro n file hn
    rw [lookup_rotate hlog] at hn
    rw [hnext]
    split at hn
    · cases hn
      exact h.fresh _ _ hlog
    · split at hn
      · cases hn
      · exact h.fresh n file hn
  · intro a b file ha hb
    rw [lookup_rotate hlog] at ha hb
    -- only `journal.log` stood for the file that is renamed
    have hother : ∀ n, (if n = .log then none else f.names.lookup n) = some file → file ≠ log := by
      intro n hn heq
      obtain ⟨hne, hn⟩ := Option.ite_none_left_eq_some.1 hn
      exact hne (h.separate n .log file hn (heq ▸ hlog))
    split at ha <;> split at hb
    · next ha' hb' => rw [ha', hb']
    · cases ha
      exact absurd rfl (hother b hb)
    · cases hb
      exact absurd rfl (hother a ha)
    · exact h.separate a b file (Option.ite_none_left_eq_some.1 ha).2 (Option.ite_none_left_eq_some.1 hb).2

theorem lookup_remove (name' : FileName) :
    (f.remove name).names.lookup name' = if name' = name then none else f.names.lookup name' :=
  Assoc.lookup_erase_eq_ite _ _ _

theorem Linked.remove (h : f.Linked) : (f.remove name).Linked := by
  constructor
  · intro n file hn
    rw [lookup_remove] at hn
    exact h.fresh n file (Option.ite_none_left_eq_some.1 hn).2
  · intro a b file ha hb
    rw [lookup_remove] at ha hb
    exact h.separate a b file (Option.ite_none_left_eq_some.1 ha).2 (Option.ite_none_left_eq_some.1 hb).2

end Files

/-! ## Units -/

theorem lastUsedMs_unitFrom (uses : List Use) (c : ActionCandidate) : (unitFrom uses c).lastUsedMs =
    max (lastUse (uses.map fun use => ((use.staticKey, use.actionKey), use.ms)) c.staticKey c.actionKey) c.createdMs :=
  rfl

/-- The newest of the uses that a unit's keys have is one of them, or zero. -/
theorem lastUse_spec (uses : Uses) (staticKey actionKey : Text) :
    (lastUse uses staticKey actionKey = 0 ∨ ((staticKey, actionKey), lastUse uses staticKey actionKey) ∈ uses) ∧
      ∀ ms, ((staticKey, actionKey), ms) ∈ uses → ms ≤ lastUse uses staticKey actionKey := by
  have hmem : ∀ ms, ms ∈ (uses.filterMap fun use => if use.1 = (staticKey, actionKey) then some use.2 else none) ↔
      ((staticKey, actionKey), ms) ∈ uses := by
    intro ms
    rw [List.mem_filterMap]
    constructor
    · intro h
      obtain ⟨⟨keys, ms'⟩, hu, hite⟩ := h
      obtain ⟨hkeys, hms⟩ := Option.ite_none_right_eq_some.1 hite
      cases hkeys
      cases hms
      exact hu
    · intro h
      exact ⟨_, h, if_pos rfl⟩
  have hmax : (0 :: uses.filterMap fun use => if use.1 = (staticKey, actionKey) then some use.2 else none).max? =
      some (lastUse uses staticKey actionKey) := List.max?_cons'
  obtain ⟨hnewest, hle⟩ := List.max?_eq_some_iff.1 hmax
  refine ⟨?_, fun ms hms => hle ms (List.mem_cons_of_mem _ ((hmem ms).2 hms))⟩
  rcases List.mem_cons.1 hnewest with hzero | hnewest
  · exact .inl hzero
  · exact .inr ((hmem _).1 hnewest)

/-- The unit of a candidate is as lately used as the uses tell of it. -/
theorem IsUnit.le_lastUsedMs {uses : List Use} {c : ActionCandidate} {mark : Mark}
    (h : IsUnit (unitFrom uses c) mark.unit) (htold : mark.ms ≤ mark.unit.createdMs ∨ mark.ToldBy uses) :
    mark.ms ≤ (unitFrom uses c).lastUsedMs := by
  obtain ⟨hkey, hcandidate⟩ := h
  obtain ⟨haction, hcreated⟩ := Prod.mk.inj (Option.some.inj hcandidate)
  have hkey : c.staticKey = mark.unit.staticKey := Option.some.inj hkey
  rw [lastUsedMs_unitFrom]
  rcases htold with hle | ⟨use, hu, huk, hua, hms⟩
  · omega
  · have hlast := (lastUse_spec (uses.map fun use => ((use.staticKey, use.actionKey), use.ms)) c.staticKey
      c.actionKey).2 use.ms (List.mem_map.2 ⟨use, hu, by rw [huk, hua, hkey, haction]⟩)
    omega

/-- A use that a compaction writes was told: its line can be read back. -/
theorem valid_of_lastUsedMs {uses : List Use} {c : ActionCandidate} (hv : ∀ use ∈ uses, Valid use)
    (h : c.createdMs < (unitFrom uses c).lastUsedMs) :
    Valid ⟨c.staticKey, c.actionKey, (unitFrom uses c).lastUsedMs⟩ := by
  rw [lastUsedMs_unitFrom] at h ⊢
  rw [max_eq_left (by omega)]
  rcases (lastUse_spec (uses.map fun use => ((use.staticKey, use.actionKey), use.ms)) c.staticKey c.actionKey).1
    with hzero | hmem
  · omega
  · obtain ⟨use, hu, heq⟩ := List.mem_map.1 hmem
    obtain ⟨hkeys, hms⟩ := Prod.mk.inj heq
    obtain ⟨hk, ha⟩ := Prod.mk.inj hkeys
    rw [← hms, ← hk, ← ha]
    exact hv use hu

/-- What a compaction writes. -/
theorem mem_surviving {units : List GcUnit} {evicted : List Nat} {use : Use} (h : use ∈ surviving units evicted) :
    ∃ unit ∈ units, ∃ created, unit.staticKey = some use.staticKey ∧
      unit.candidate = some (use.actionKey, created) ∧ created < unit.lastUsedMs ∧ use.ms = unit.lastUsedMs := by
  obtain ⟨⟨unit, i⟩, hmem, hsome⟩ := List.mem_filterMap.1 h
  have hunit := List.mem_zipIdx' (List.mem_of_mem_filter hmem)
  dsimp only at hsome
  split at hsome
  · next key action created hk hc =>
    obtain ⟨hlt, huse⟩ := Option.ite_none_right_eq_some.1 hsome
    cases Option.some.inj huse
    exact ⟨unit, hunit.2 ▸ List.getElem_mem hunit.1, created, hk, hc, hlt, rfl⟩
  · cases hsome

/-- A unit that was read and is not evicted keeps its last use, if that is
later than its making. -/
theorem surviving_of_isUnit {units : List GcUnit} {evicted : List Nat} {entry : GcUnit × Nat} {id : UnitId}
    (hmem : entry ∈ units.zipIdx) (hkept : entry.2 ∉ evicted) (hid : IsUnit entry.1 id)
    (hlate : id.createdMs < entry.1.lastUsedMs) :
    ⟨id.staticKey, id.actionKey, entry.1.lastUsedMs⟩ ∈ surviving units evicted := by
  refine List.mem_filterMap.2 ⟨entry, List.mem_filter.2 ⟨hmem, by simpa using hkept⟩, ?_⟩
  rw [hid.1, hid.2]
  exact if_pos hlate

/-! ## What every state keeps -/

/-- What the running collection has read: a mark made before it is told by
the uses read or by a file still to be read, and so is what any file that it
may remove tells. -/
structure ReadSoFar (f : Files) (dryRun : Bool) (before : List Mark) (left : List FileName) (uses : List Use) :
    Prop where
  valid : ∀ use ∈ uses, Valid use
  before : ∀ mark ∈ before, mark.ms ≤ mark.unit.createdMs ∨ mark.ToldBy uses ∨ f.Tells (· ∈ left) mark
  read : dryRun = true ∨ ∀ (name : FileName) (file : Nat), f.names.lookup name = some file → name ≠ .log →
    name ∉ left → ∀ use ∈ wholeUses (f.contents file), use ∈ uses

/-- The files that the collection is going to remove. -/
def Collection.doomed : Collection → List FileName
  | .removing left => left
  | _ => []

namespace State

/-- What the collection knows of the files. -/
def Progress (s : State) : Prop :=
  match s.collection with
  | .idle => True
  | .reading _ dryRun before left uses => ReadSoFar s.files dryRun before left uses
  | .scanning _ dryRun before uses units =>
    ReadSoFar s.files dryRun before [] uses ∧ ∀ unit ∈ units, ∃ c, unit = unitFrom uses c
  | .removing left => .log ∉ left

structure Kept (s : State) : Prop where
  linked : s.files.Linked
  valid : ∀ w ∈ s.writers, Valid w.use
  marks : ∀ mark ∈ s.marks, mark.ms ≤ mark.unit.createdMs ∨ s.files.Tells (· ∉ s.collection.doomed) mark
  progress : s.Progress

theorem Kept.init (candidates : List ActionCandidate) : (init candidates).Kept where
  linked := .empty
  valid := fun _ h => by cases h
  marks := fun _ h => by cases h
  progress := trivial

/-- **What is kept, every snapshot remembers.** -/
theorem Kept.remembered {s : State} (h : s.Kept) : s.Remembered := by
  have hp := h.progress
  unfold Progress at hp
  unfold Remembered
  split
  · next startedMs dryRun before uses units heq =>
    rw [heq] at hp
    intro unit hunit mark hmark hid
    obtain ⟨c, rfl⟩ := hp.2 unit hunit
    refine hid.le_lastUsedMs ?_
    rcases hp.1.before mark hmark with hle | htold | htells
    · exact .inl hle
    · exact .inr htold
    · obtain ⟨name, file, hmem, -⟩ := htells
      exact absurd hmem List.not_mem_nil
  · trivial

end State

/-! ## Writers -/

/-- Files that grow, and no file that may be removed unread among them,
change nothing of what was read. -/
theorem ReadSoFar.grows {f f' : Files} {dryRun : Bool} {before : List Mark} {left : List FileName} {uses : List Use}
    (h : ReadSoFar f dryRun before left uses) (hg : f.Grows f')
    (hread : dryRun = true ∨ ∀ (name : FileName) (file : Nat), f'.names.lookup name = some file → name ≠ .log →
      name ∉ left → f.names.lookup name = some file ∧ wholeUses (f'.contents file) = wholeUses (f.contents file)) :
    ReadSoFar f' dryRun before left uses where
  valid := h.valid
  before := fun mark hmark => (h.before mark hmark).imp_right (.imp_right (·.grows hg))
  read := by
    rcases h.read with hdry | hold
    · exact .inl hdry
    · refine hread.imp_right fun hnew name file hfile hlog hleft use hu => ?_
      obtain ⟨hfile', heq⟩ := hnew name file hfile hlog hleft
      exact hold name file hfile' hlog hleft use (heq ▸ hu)

namespace State

variable {s : State}

/-- What holds of a step of a writer: the files grow, but for files that the
collection may remove without reading them again. -/
theorem Kept.grows {files : Files} {candidates : List ActionCandidate} {writers : List Writer} {marks : List Mark}
    (h : s.Kept)
    (hl : files.Linked) (hw : ∀ w ∈ writers, Valid w.use) (hg : s.files.Grows files)
    (hm : ∀ mark ∈ marks, mark ∈ s.marks ∨ files.Tells (· ∉ s.collection.doomed) mark)
    (hread : ∀ (name : FileName) (file : Nat), files.names.lookup name = some file → s.Open name ∨
      s.files.names.lookup name = some file ∧ wholeUses (files.contents file) = wholeUses (s.files.contents file)) :
    { s with files, candidates, writers, marks }.Kept where
  linked := hl
  valid := hw
  marks := by
    intro mark hmark
    rcases hm mark hmark with hold | hnew
    · exact (h.marks mark hold).imp_right (·.grows hg)
    · exact .inr hnew
  progress := by
    have hp := h.progress
    unfold Progress at hp ⊢
    unfold Open at hread
    cases hc : s.collection with
    | idle => trivial
    | reading startedMs dryRun before left uses =>
      simp only [hc] at hp hread ⊢
      refine hp.grows hg ?_
      cases dryRun
      · refine .inr fun name file hfile hlog hleft => (hread name file hfile).resolve_left ?_
        simp [hlog, hleft]
      · exact .inl rfl
    | scanning startedMs dryRun before uses units =>
      simp only [hc] at hp hread ⊢
      refine ⟨hp.1.grows hg ?_, hp.2⟩
      cases dryRun
      · refine .inr fun name file hfile hlog hleft => (hread name file hfile).resolve_left ?_
        simp [hlog]
      · exact .inl rfl
    | removing left =>
      simp only [hc] at hp ⊢
      exact hp

theorem Kept.valid_set {i : Nat} {w : Writer} (h : s.Kept) (hw : s.writers[i]? = some w) (phase : WriterPhase) :
    ∀ w' ∈ (s.setWriter i w phase).writers, Valid w'.use := by
  intro w' hw'
  rcases List.mem_or_eq_of_mem_set hw' with hmem | rfl
  · exact h.valid w' hmem
  · exact h.valid w (List.mem_of_getElem? hw)

theorem Kept.open_log (h : s.Kept) : s.Open .log := by
  have hp := h.progress
  unfold Progress at hp
  unfold Open
  split
  · trivial
  · exact .inr (.inl rfl)
  · exact .inr rfl
  · next heq =>
    rw [heq] at hp
    exact hp

theorem Kept.openJournal {i : Nat} {w : Writer} (h : s.Kept) (hw : s.writers[i]? = some w) (phase : WriterPhase) :
    { s.setWriter i w phase with files := s.files.open'.2 }.Kept := by
  rcases s.files.open'_cases with heq | ⟨hnew, heq⟩ <;> rw [heq]
  · exact h.grows h.linked (h.valid_set hw phase) (.refl _) (fun mark hm => .inl hm) fun name file hfile =>
      .inr ⟨hfile, rfl⟩
  · refine h.grows h.linked.create (h.valid_set hw phase) (h.linked.create_grows hnew) (fun mark hm => .inl hm) ?_
    intro name file hfile
    rw [Files.lookup_create] at hfile
    split at hfile
    · next hlog => exact .inl (hlog ▸ h.open_log)
    · rw [Files.contents_create_of_lt (h.linked.fresh name file hfile)]
      exact .inr ⟨hfile, rfl⟩

/-- A whole line is told by the file it is appended to. -/
theorem Kept.append {i : Nat} {w : Writer} {file : Nat} (h : s.Kept) (hw : s.writers[i]? = some w)
    (hphase : w.phase = .opened file) (hsafe : s.Safe (.append i)) :
    { s.setWriter i w .done with
      files := s.files.append file (useLine w.use)
      marks := s.marksOf w.use ++ s.marks }.Kept := by
  obtain ⟨name, -, hname, hopen, hstart⟩ := hsafe w hw
  obtain ⟨file', hfile, heq⟩ := Option.map_eq_some_iff.1 hname
  obtain rfl : file' = file := WriterPhase.opened.inj (heq.trans hphase)
  have hused := h.valid w (List.mem_of_getElem? hw)
  rw [Files.text_of_lookup hfile] at hstart
  refine h.grows (h.linked.append _ _) (h.valid_set hw .done) (Files.append_grows _) ?_ ?_
  · intro mark hmark
    rcases List.mem_append.1 hmark with hnew | hold
    · right
      obtain ⟨c, hc, rfl⟩ := List.mem_map.1 hnew
      obtain ⟨hkey, haction⟩ := of_decide_eq_true (List.mem_filter.1 hc).2
      refine ⟨name, file', ?_, hfile, w.use, ?_, hkey.symm, haction.symm, le_rfl⟩
      · unfold Open at hopen
        unfold Collection.doomed
        cases hcol : s.collection <;> simp only [hcol] at hopen ⊢
        case removing left => exact hopen
        all_goals exact List.not_mem_nil
      · rw [Files.contents_append_self, wholeUses_append_useLine hstart hused]
        exact List.mem_append_right _ List.mem_cons_self
    · exact .inl hold
  · intro other file hother
    rcases eq_or_ne file file' with rfl | hne
    · exact .inl (h.linked.separate name other file hfile hother ▸ hopen)
    · rw [Files.contents_append_ne hne]
      exact .inr ⟨hother, rfl⟩

theorem not_mem_take_useLine {use : Use} (h : Valid use) {n : Nat} (hn : n < (useLine use).length) :
    '\n' ∉ (useLine use).take n := by
  obtain ⟨body, hline, hbody⟩ := useLine_eq use
  rw [hline, List.length_append, List.length_singleton] at hn
  rw [hline, List.take_append_of_le_length (by omega)]
  exact fun hmem => h.not_mem (by decide) (by decide) (by decide) (hbody ▸ List.mem_of_mem_take hmem)

/-- What an interrupted writer leaves changes nothing that is told. -/
theorem Kept.tear {i n : Nat} {w : Writer} (h : s.Kept) (hw : s.writers[i]? = some w) (file : Nat)
    (hn : n < (useLine w.use).length) :
    { s.setWriter i w .done with files := s.files.append file ((useLine w.use).take n) }.Kept := by
  have hused := h.valid w (List.mem_of_getElem? hw)
  refine h.grows (h.linked.append _ _) (h.valid_set hw .done) (Files.append_grows _) (fun mark hm => .inl hm) ?_
  intro name file' hfile
  refine .inr ⟨hfile, ?_⟩
  rcases eq_or_ne file' file with rfl | hne
  · rw [Files.contents_append_self, wholeUses_append_torn _ (not_mem_take_useLine hused hn)]
  · rw [Files.contents_append_ne hne]

end State

/-! ## The collection -/

/-- Renaming the journal loses nothing, if no journal had the new name. -/
theorem Files.Tells.rotate {f : Files} {p : FileName → Prop} {mark : Mark} {now pid : Nat} (h : f.Tells p mark)
    (hnew : f.names.lookup .log = none ∨ f.names.lookup (.rotated now pid) = none) :
    (f.rotate now pid).Tells (fun _ => True) mark := by
  obtain ⟨name, file, -, hfile, htold⟩ := h
  rcases hlog : f.names.lookup .log with _ | log
  · rw [Files.rotate, hlog]
    exact ⟨name, file, trivial, hfile, htold⟩
  · rw [hlog] at hnew
    have hfree := hnew.resolve_left (by simp)
    have hname : ∃ name', (f.rotate now pid).names.lookup name' = some file := by
      rcases eq_or_ne name .log with heq | hne
      · rw [heq, hlog] at hfile
        exact ⟨.rotated now pid, by rw [Files.lookup_rotate hlog, if_pos rfl, hfile]⟩
      · have hne' : name ≠ .rotated now pid := by
          intro heq
          rw [heq, hfree] at hfile
          cases hfile
        exact ⟨name, by rw [Files.lookup_rotate hlog, if_neg hne', if_neg hne, hfile]⟩
    obtain ⟨name', hfile'⟩ := hname
    exact ⟨name', file, trivial, hfile', by rwa [Files.contents_rotate]⟩

theorem Files.Tells.keys {f : Files} {p : FileName → Prop} {mark : Mark} (h : f.Tells p mark) :
    f.Tells (· ∈ f.names.keys) mark := by
  obtain ⟨name, file, -, hfile, htold⟩ := h
  exact ⟨name, file, AList.mem_keys.1 (AList.lookup_isSome.1 (by rw [hfile]; rfl)), hfile, htold⟩

/-- Reading begins with every file still to be read. -/
theorem ReadSoFar.start {f : Files} {dryRun : Bool} {before : List Mark}
    (h : ∀ mark ∈ before, mark.ms ≤ mark.unit.createdMs ∨ f.Tells (fun _ => True) mark) :
    ReadSoFar f dryRun before f.names.keys [] where
  valid := fun _ hu => absurd hu List.not_mem_nil
  before := fun mark hmark => (h mark hmark).imp_right fun htells => .inr htells.keys
  read := .inr fun name file hfile _ hleft => by
    have hkey := AList.mem_keys.1 (AList.lookup_isSome.1 (show (f.names.lookup name).isSome by rw [hfile]; rfl))
    exact absurd hkey hleft

theorem ReadSoFar.readFile {f : Files} {dryRun : Bool} {before : List Mark} {left : List FileName} {uses : List Use}
    (h : ReadSoFar f dryRun before left uses) (name : FileName) :
    ReadSoFar f dryRun before (left.filter (· ≠ name)) (uses ++ parseLines (f.text name)) where
  valid := by
    intro use hu
    rcases List.mem_append.1 hu with hold | hnew
    · exact h.valid use hold
    · exact valid_of_mem_parseLines hnew
  before := by
    intro mark hmark
    refine (h.before mark hmark).imp_right ?_
    intro htells
    rcases htells with ⟨use, hu, hkeys⟩ | ⟨name', file, hleft, hfile, use, hu, hkeys⟩
    · exact .inl ⟨use, List.mem_append_left _ hu, hkeys⟩
    · rcases eq_or_ne name' name with rfl | hne
      · have hread := mem_parseLines_of_wholeUses hu
        rw [← Files.text_of_lookup hfile] at hread
        exact .inl ⟨use, List.mem_append_right _ hread, hkeys⟩
      · exact .inr ⟨name', file, List.mem_filter.2 ⟨hleft, by simpa using hne⟩, hfile, use, hu, hkeys⟩
  read := by
    refine h.read.imp_right fun hold name' file hfile hlog hleft use hu => ?_
    rcases eq_or_ne name' name with rfl | hne
    · have hread := mem_parseLines_of_wholeUses hu
      rw [← Files.text_of_lookup hfile] at hread
      exact List.mem_append_right _ hread
    · refine List.mem_append_left _ (hold name' file hfile hlog (fun hmem => ?_) use hu)
      exact hleft (List.mem_filter.2 ⟨hmem, by simpa using hne⟩)

/-- A mark that a file tells was read, or is told by `journal.log`. -/
theorem ReadSoFar.toldBy_or {f : Files} {before : List Mark} {uses : List Use} {p : FileName → Prop} {mark : Mark}
    (h : ReadSoFar f false before [] uses) (htells : f.Tells p mark) :
    mark.ToldBy uses ∨ mark.ToldBy (wholeUses (f.text .log)) := by
  obtain ⟨name, file, -, hfile, use, hu, hkeys⟩ := htells
  rcases eq_or_ne name .log with rfl | hne
  · rw [Files.text_of_lookup hfile]
    exact .inr ⟨use, hu, hkeys⟩
  · have hread := h.read.resolve_left (by simp)
    exact .inl ⟨use, hread name file hfile hne List.not_mem_nil use hu, hkeys⟩

/-- The lines that a compaction writes are read back. -/
theorem wholeUses_surviving {uses : List Use} (hv : ∀ use ∈ uses, Valid use) {units : List GcUnit}
    (hu : ∀ unit ∈ units, ∃ c, unit = unitFrom uses c) (evicted : List Nat) :
    wholeUses ((surviving units evicted).flatMap useLine) = surviving units evicted := by
  have hvalid : ∀ use ∈ surviving units evicted, Valid use := by
    intro use huse
    obtain ⟨unit, hmem, created, hkey, hcandidate, hlt, hms⟩ := mem_surviving huse
    obtain ⟨c, rfl⟩ := hu unit hmem
    obtain ⟨haction, rfl⟩ := Prod.mk.inj (Option.some.inj hcandidate)
    have hline := valid_of_lastUsedMs hv hlt
    obtain ⟨staticKey, actionKey, ms⟩ := use
    obtain rfl : c.staticKey = staticKey := Option.some.inj hkey
    obtain rfl : c.actionKey = actionKey := haction
    obtain rfl : ms = _ := hms
    exact hline
  obtain ⟨hparse, hstart⟩ := parseLines_flatMap_useLine hvalid
  rw [wholeUses, whole_of_atLineStart hstart, hparse]

namespace State

variable {s : State}

theorem Kept.collect {dryRun : Bool} {now pid : Nat} (h : s.Kept)
    (hsafe : s.Safe (.collect dryRun now pid)) :
    { s with
      files := if dryRun then s.files else s.files.rotate now pid
      collection := .reading now dryRun s.marks (if dryRun then s.files else s.files.rotate now pid).names.keys [] }.Kept := by
  have hmarks : ∀ mark ∈ s.marks, mark.ms ≤ mark.unit.createdMs ∨
      (if dryRun then s.files else s.files.rotate now pid).Tells (fun _ => True) mark := by
    intro mark hmark
    refine (h.marks mark hmark).imp_right fun htells => ?_
    rcases hsafe with hdry | hnew
    · rw [if_pos hdry]
      exact htells.imp fun _ _ => trivial
    · split
      · exact htells.imp fun _ _ => trivial
      · exact htells.rotate hnew
  constructor
  · show (if dryRun then s.files else s.files.rotate now pid).Linked
    split
    · exact h.linked
    · exact h.linked.rotate now pid
  · exact h.valid
  · intro mark hmark
    exact (hmarks mark hmark).imp_right fun htells => htells.imp fun _ _ => List.not_mem_nil
  · exact .start hmarks

/-- A compaction writes what the files it is going to remove tell of the used
units. -/
theorem Kept.compact {startedMs : Nat} {before : List Mark} {uses : List Use} {units : List GcUnit}
    {evicted : List Nat} (h : s.Kept) (hc : s.collection = .scanning startedMs false before uses units)
    (hsafe : s.KeepsMarks units evicted) : (s.compact startedMs units evicted).Kept := by
  have hp := h.progress
  unfold Progress at hp
  rw [hc] at hp
  obtain ⟨hread, hunits⟩ := hp
  have hwritten := wholeUses_surviving hread.valid hunits evicted
  set lines := (surviving units evicted).flatMap useLine with hlines
  have hdoomed : ∀ name, name = .log ∨ name = .compact startedMs →
      name ∉ (s.files.names.keys.filter (· ≠ .log)).filter (· ≠ .compact startedMs) := by
    intro name hname hmem
    have hne := (List.mem_filter.1 hmem).2
    have hne' := (List.mem_filter.1 (List.mem_filter.1 hmem).1).2
    rcases hname with rfl | rfl
    · simp at hne'
    · simp at hne
  constructor
  · show (if lines = [] then s.files else s.files.create (.compact startedMs) lines).Linked
    split
    · exact h.linked
    · exact h.linked.create
  · exact h.valid
  · -- what `journal.log` tells it still tells
    have hlog : ∀ mark : Mark, mark.ToldBy (wholeUses (s.files.text .log)) →
        (s.compact startedMs units evicted).files.Tells
          (· ∉ (s.compact startedMs units evicted).collection.doomed) mark := by
      intro mark htold
      rcases hfile : s.files.names.lookup .log with _ | file
      · rw [Files.text, hfile] at htold
        obtain ⟨use, hu, -⟩ := htold
        cases hu
      · rw [Files.text_of_lookup hfile] at htold
        refine ⟨.log, file, hdoomed .log (.inl rfl), ?_⟩
        show (if lines = [] then s.files else s.files.create (.compact startedMs) lines).names.lookup .log = _ ∧
          mark.ToldBy (wholeUses ((if lines = [] then s.files else s.files.create (.compact startedMs) lines).contents
            file))
        split
        · exact ⟨hfile, htold⟩
        · rw [Files.lookup_create, if_neg (by simp), Files.contents_create_of_lt (h.linked.fresh .log file hfile)]
          exact ⟨hfile, htold⟩
    intro mark hmark
    rcases hsafe mark hmark with hle | ⟨entry, hentry, hkept, hid⟩ | htold
    · exact .inl hle
    · rcases (h.marks mark hmark).imp_right hread.toldBy_or with hle | htold | htold
      · exact .inl hle
      · obtain ⟨c, hunit⟩ := hunits entry.1 (List.fst_mem_of_mem_zipIdx hentry)
        have hlast : mark.ms ≤ entry.1.lastUsedMs := by
          rw [hunit] at hid ⊢
          exact hid.le_lastUsedMs (.inr htold)
        by_cases hlate : mark.unit.createdMs < entry.1.lastUsedMs
        · right
          have hmem := surviving_of_isUnit hentry hkept hid hlate
          have hne : lines ≠ [] := by
            intro heq
            rw [heq] at hwritten
            rw [← hwritten] at hmem
            cases hmem
          refine ⟨.compact startedMs, s.files.next, hdoomed _ (.inr rfl), ?_⟩
          show (if lines = [] then s.files else s.files.create (.compact startedMs) lines).names.lookup _ = _ ∧
            mark.ToldBy (wholeUses ((if lines = [] then s.files else s.files.create (.compact startedMs) lines).contents
              s.files.next))
          rw [if_neg hne, Files.lookup_create, if_pos rfl, Files.contents_create_next, hwritten]
          exact ⟨rfl, _, hmem, rfl, rfl, hlast⟩
        · exact .inl (by omega)
      · exact .inr (hlog mark htold)
    · exact .inr (hlog mark htold)
  · exact hdoomed .log (.inl rfl)

theorem Kept.removeFile {left : List FileName} (h : s.Kept) (hc : s.collection = .removing left) {name : FileName}
    (hname : name ∈ left) :
    { s with files := s.files.remove name, collection := .removing (left.filter (· ≠ name)) }.Kept := by
  have hp := h.progress
  unfold Progress at hp
  rw [hc] at hp
  have hmarks := h.marks
  rw [hc] at hmarks
  constructor
  · exact h.linked.remove
  · exact h.valid
  · intro mark hmark
    refine (hmarks mark hmark).imp_right ?_
    intro htells
    obtain ⟨name', file, hnot, hfile, htold⟩ := htells
    have hne : name' ≠ name := fun heq => hnot (heq ▸ hname)
    refine ⟨name', file, fun hmem => hnot (List.mem_of_mem_filter hmem), ?_, htold⟩
    rw [Files.lookup_remove, if_neg hne]
    exact hfile
  · exact fun hmem => hp (List.mem_of_mem_filter hmem)

theorem Kept.stop (h : s.Kept) : { s with collection := .idle }.Kept where
  linked := h.linked
  valid := h.valid
  marks := fun mark hmark => (h.marks mark hmark).imp_right fun htells => htells.imp fun _ _ => List.not_mem_nil
  progress := trivial

/-- A safe step keeps it. -/
theorem Kept.step {event : Event} {t : State} (h : s.Kept) (hstep : s.step event = some t) (hsafe : s.Safe event) :
    t.Kept := by
  have hp := h.progress
  unfold Progress at hp
  cases event with
  | recordUse staticKey actionKey now =>
    obtain ⟨hvalid, hstep⟩ := Option.ite_none_right_eq_some.1 hstep
    cases hstep
    refine h.grows h.linked ?_ (.refl _) (fun mark hm => .inl hm) fun name file hfile => .inr ⟨hfile, rfl⟩
    intro w hw
    rcases List.mem_append.1 hw with hw | hw
    · exact h.valid w hw
    · obtain rfl := List.mem_singleton.1 hw
      exact hvalid
  | openJournal i =>
    obtain ⟨w, hw, hstep⟩ := Option.bind_eq_some_iff.1 hstep
    obtain ⟨-, hstep⟩ := Option.ite_none_right_eq_some.1 hstep
    cases hstep
    exact h.openJournal hw _
  | append i =>
    obtain ⟨w, hw, hstep⟩ := Option.bind_eq_some_iff.1 hstep
    split at hstep
    · next file hphase =>
      cases hstep
      exact h.append hw hphase hsafe
    · cases hstep
  | tear i n =>
    obtain ⟨w, hw, hstep⟩ := Option.bind_eq_some_iff.1 hstep
    split at hstep
    · next file hphase =>
      obtain ⟨hn, hstep⟩ := Option.ite_none_right_eq_some.1 hstep
      cases hstep
      exact h.tear hw file hn
    · cases hstep
  | setIndexes candidates =>
    cases hstep
    exact h.grows h.linked h.valid (.refl _) (fun mark hm => .inl (List.mem_of_mem_filter hm)) fun name file hfile =>
      .inr ⟨hfile, rfl⟩
  | collect dryRun now pid =>
    obtain ⟨-, hstep⟩ := Option.ite_none_right_eq_some.1 hstep
    cases hstep
    exact h.collect hsafe
  | readFile name =>
    simp only [State.step] at hstep
    split at hstep
    · next startedMs dryRun before left uses hc =>
      obtain ⟨-, hstep⟩ := Option.ite_none_right_eq_some.1 hstep
      cases hstep
      rw [hc] at hp
      have hmarks := h.marks
      rw [hc] at hmarks
      exact ⟨h.linked, h.valid, hmarks, hp.readFile name⟩
    · cases hstep
  | journalRead =>
    simp only [State.step] at hstep
    split at hstep
    · next startedMs dryRun before uses hc =>
      cases hstep
      rw [hc] at hp
      have hmarks := h.marks
      rw [hc] at hmarks
      exact ⟨h.linked, h.valid, hmarks, hp, fun unit hunit => absurd hunit List.not_mem_nil⟩
    · cases hstep
  | readIndex staticKey =>
    simp only [State.step] at hstep
    split at hstep
    · next startedMs dryRun before uses units hc =>
      cases hstep
      rw [hc] at hp
      have hmarks := h.marks
      rw [hc] at hmarks
      refine ⟨h.linked, h.valid, hmarks, hp.1, fun unit hunit => ?_⟩
      rcases List.mem_append.1 hunit with hold | hnew
      · exact hp.2 unit hold
      · obtain ⟨c, -, rfl⟩ := List.mem_map.1 hnew
        exact ⟨c, rfl⟩
    · cases hstep
  | compact evicted =>
    simp only [State.step] at hstep
    split at hstep
    · next startedMs before uses units hc =>
      cases hstep
      simp only [Safe, hc] at hsafe
      exact h.compact hc hsafe
    · cases hstep
  | removeFile name =>
    simp only [State.step] at hstep
    split at hstep
    · next left hc =>
      obtain ⟨hname, hstep⟩ := Option.ite_none_right_eq_some.1 hstep
      cases hstep
      exact h.removeFile hc hname
    · cases hstep
  | stop =>
    cases hstep
    exact h.stop

/-- **Where every line starts a line of a file that is still to be read, and
no compaction leaves out a used unit, every snapshot remembers every use.** -/
theorem run_remembered {candidates : List ActionCandidate} {ms : List (Transition.Move State Event)} {s : State}
    (h : Transition.Run (fun s event t => s.step event = some t) (init candidates) ms s)
    (hsafe : ∀ m ∈ ms, m.pre.Safe m.label) : ∀ m ∈ ms, m.post.Remembered := by
  have hkept := h.posts_of Kept Safe (.init candidates) (fun _ _ _ hk hstep hc => hk.step hstep hc) hsafe
  exact fun m hm => (hkept.1 m hm).remembered

/-! ## Runs that do, and runs that do not -/

def key : Text := List.replicate 64 'a'

def library : ActionCandidate where
  protocol := 1
  staticKey := key
  actionKey := key
  crateName := "bytes".toList
  createdMs := 1
  files := []
  hostFiles := []
  env := []
  artifacts := []
  stdout := ⟨[], 0⟩
  stderr := ⟨[], 0⟩
  procMacros := []

/-- A use, an interrupted one, a use during a collection, and the collection
after it. -/
def usedTwice : List Event :=
  [.recordUse key key 5, .openJournal 0, .append 0, .recordUse key key 6, .openJournal 1, .tear 1 20,
    .collect false 10 1, .recordUse key key 12, .openJournal 2, .append 2, .readFile (.rotated 10 1), .journalRead,
    .readIndex key, .compact [], .removeFile (.rotated 10 1), .stop,
    .collect false 20 1, .readFile (.rotated 20 1), .readFile (.compact 10), .journalRead, .readIndex key]

theorem usedTwice_remembered : ∃ ms s,
    Transition.Run (fun (s : State) event t => s.step event = some t) (init [library]) ms s ∧
    s.collection = .scanning 20 false [⟨idOf library, 12⟩, ⟨idOf library, 5⟩]
      [⟨key, key, 12⟩, ⟨key, key, 5⟩] [unitFrom [⟨key, key, 12⟩] library] ∧ ∀ m ∈ ms, m.post.Remembered := by
  have hrun : (usedTwice.foldlM (fun (s : State) event => if s.Safe event then s.step event else none)
      (init [library])).any (fun s => decide (s.collection = .scanning 20 false
        [⟨idOf library, 12⟩, ⟨idOf library, 5⟩] [⟨key, key, 12⟩, ⟨key, key, 5⟩]
        [unitFrom [⟨key, key, 12⟩] library])) = true := by
    decide +kernel
  obtain ⟨s, hs, hend⟩ := (Option.any_eq_true _ _).1 hrun
  obtain ⟨ms, hr, hsafe⟩ := Transition.Run.foldlM_checked _ _ _ _ hs
  exact ⟨ms, s, hr, of_decide_eq_true hend, run_remembered hr hsafe⟩

/-- A line appended to a journal that a collection has read already, and
removes. -/
def afterRead : List Event :=
  [.recordUse key key 7, .openJournal 0, .collect false 10 1, .readFile (.rotated 10 1), .append 0, .journalRead,
    .readIndex key, .compact [], .removeFile (.rotated 10 1), .stop, .collect false 20 1, .journalRead, .readIndex key]

theorem afterRead_forgotten :
    ¬ ∀ candidates ms s, Transition.Run (fun (s : State) event t => s.step event = some t) (init candidates) ms s →
      ∀ m ∈ ms, m.post.Remembered := by
  intro hall
  have hrun : (afterRead.foldlM (fun (s : State) event => s.step event) (init [library])).any
      (fun s => !decide s.Remembered) = true := by
    decide +kernel
  obtain ⟨s, hs, hend⟩ := (Option.any_eq_true _ _).1 hrun
  obtain ⟨ms, hr⟩ := Transition.Run.foldlM _ _ _ hs
  have hbad : ¬ s.Remembered := by simpa using hend
  cases hr with
  | nil => exact hbad trivial
  | snoc hr hstep => exact hbad (hall _ _ _ (hr.snoc hstep) _ (List.mem_append_right _ List.mem_cons_self))

-- a whole line after an interrupted one is as lost
example : (([.recordUse key key 5, .openJournal 0, .tear 0 20, .recordUse key key 7, .openJournal 1, .append 1,
    .collect false 10 1, .readFile (.rotated 10 1), .journalRead, .readIndex key] : List Event).foldlM
    (fun (s : State) event => s.step event) (init [library])).any (fun s => !decide s.Remembered) = true := by
  decide +kernel

end State

end Bellows.Access
