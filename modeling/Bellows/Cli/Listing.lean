/-
What the listing of a directory says: the names and the kinds of everything
its walk visits (`listed_of_visits`), and nothing else (`visits_of_listed`). Two listings of one
text therefore come from walks that visit the same (`sameVisits_of_listing`).
-/
import Bellows.Cli.Capture
import Bellows.Cli.FileTree
import Bellows.Lib.Checked

namespace Bellows.Cli.BuildScript

open Text Checked

variable {fs : FileSystem} {names : Text → Option (List Text)}

/-! ## What a walk visits -/

def IsDirectory (fs : FileSystem) (path : Text) : Prop := ∃ m, fs.symlinkMetadata path = some m ∧ m.kind = .directory

/-- A directory that is not skipped has an entry of the name. -/
def HasEntry (fs : FileSystem) (dir name : Text) : Prop :=
  EntryName name ∧ skippedDirectory fs dir = false ∧
    ∃ children, fs.readDir dir = some children ∧ join dir name ∈ children

/-- The names lead from `dir` through directories that are not skipped, and no
link. -/
inductive Visits (fs : FileSystem) : Text → List Text → Prop where
  | entry {dir name : Text} (h : HasEntry fs dir name) : Visits fs dir [name]
  | inside {dir name : Text} {rest : List Text} (h : HasEntry fs dir name) (hd : IsDirectory fs (join dir name))
      (hv : Visits fs (join dir name) rest) : Visits fs dir (name :: rest)

theorem Visits.entryName {dir : Text} {path : List Text} (h : Visits fs dir path) :
    path ≠ [] ∧ ∀ name ∈ path, EntryName name := by
  induction h with
  | entry h => exact ⟨List.cons_ne_nil _ _, by simpa using h.1⟩
  | inside h _ _ ih => exact ⟨List.cons_ne_nil _ _, List.forall_mem_cons.2 ⟨h.1, ih.2⟩⟩

/-- The letter of a kind. -/
def kindLetter : FileKind → Char
  | .directory => 'd'
  | .symlink => 'l'
  | _ => 'f'

/-- The kind of what lies at a path, as far as a listing tells it. -/
def listedKind (fs : FileSystem) (path : Text) : Option Char :=
  (fs.symlinkMetadata path).map fun m => kindLetter m.kind

/-- A line of a listing. -/
def entryText (letter : Char) (path : List Text) : Text := letter :: ' ' :: ['/'].intercalate path

/-! ## The entries of a listing -/

/-- What a round of the walk's loop adds. -/
def listChild (fs : FileSystem) (root : Text) (n : Nat) (path : Text) : Except CaptureError (List Text) := do
  let relative := (components path).drop (components root).length
  let metadata ← ask "symlink_metadata" path (fs.symlinkMetadata path)
  match metadata.kind with
  | .directory => return entryText 'd' relative :: (← listEntries fs root n path)
  | .symlink => return [entryText 'l' relative]
  | _ => return [entryText 'f' relative]

theorem listEntries_succ (fs : FileSystem) (root : Text) (n : Nat) (dir : Text) :
    listEntries fs root (n + 1) dir = if skippedDirectory fs dir then .ok [] else (do
      let children ← ask "read_dir" dir (fs.readDir dir)
      children.foldlM (fun entries path => do return entries ++ (← listChild fs root n path)) []) := by
  rw [listEntries]
  cases skippedDirectory fs dir with
  | true => rfl
  | false =>
    cases fs.readDir dir with
    | none => rfl
    | some children =>
      show List.foldlM _ [] children = List.foldlM _ [] children
      congr 1
      funext entries path
      simp only [listChild]
      cases fs.symlinkMetadata path with
      | none => rfl
      | some m =>
        obtain ⟨kind, _, _, _⟩ := m
        cases kind with
        | directory =>
          cases listEntries fs root n path with
          | error e => simp [ask, bind, Except.bind]
          | ok below => simp [ask, bind, Except.bind, pure, Except.pure, entryText]
        | _ => rfl

/-- A child has a line of its own, which tells its kind; a directory's listing
follows it. -/
theorem listChild_ok {root path : Text} {n : Nat} {entries : List Text} (h : listChild fs root n path = .ok entries) :
    ∃ letter, listedKind fs path = some letter ∧
      (IsDirectory fs path → ∃ below, listEntries fs root n path = .ok below) ∧
      ∀ entry, entry ∈ entries ↔ entry = entryText letter ((components path).drop (components root).length) ∨
        IsDirectory fs path ∧ ∃ below, listEntries fs root n path = .ok below ∧ entry ∈ below := by
  obtain ⟨m, hm, h⟩ := bind_eq_ok.1 h
  have hmeta := ask_eq_ok.1 hm
  have hkind : IsDirectory fs path → m.kind = .directory := by
    rintro ⟨m', hm', hd⟩
    obtain rfl := Option.some.inj (hmeta.symm.trans hm')
    exact hd
  refine ⟨kindLetter m.kind, by rw [listedKind, hmeta, Option.map_some], ?_⟩
  by_cases hd : m.kind = .directory
  · rw [hd] at h ⊢
    obtain ⟨below, hbelow, h⟩ := bind_eq_ok.1 h
    obtain rfl := pure_eq_ok.1 h
    refine ⟨fun _ => ⟨below, hbelow⟩, fun entry => ?_⟩
    rw [List.mem_cons]
    refine or_congr Iff.rfl ⟨fun hin => ⟨⟨m, hmeta, hd⟩, below, hbelow, hin⟩, ?_⟩
    rintro ⟨-, below', hbelow', hin⟩
    exact Except.ok.inj (hbelow.symm.trans hbelow') ▸ hin
  · have hone : entries = [entryText (kindLetter m.kind) ((components path).drop (components root).length)] := by
      cases hk : m.kind with
      | directory => exact absurd hk hd
      | _ =>
        rw [hk] at h
        exact (pure_eq_ok.1 h).symm
    refine ⟨fun hdir => absurd (hkind hdir) hd, fun entry => ?_⟩
    rw [hone, List.mem_singleton]
    exact ⟨.inl, fun h => h.resolve_right fun hdir => hd (hkind hdir.1)⟩

/-- A walk goes through the entries of a directory that is not skipped. -/
theorem listEntries_ok (hfs : LawfulTree fs names) {root dir : Text} {n : Nat} {entries : List Text}
    (h : listEntries fs root n dir = .ok entries) : ∃ fuel,
      (∀ name, HasEntry fs dir name → ∃ lines, listChild fs root fuel (join dir name) = .ok lines ∧
        ∀ line ∈ lines, line ∈ entries) ∧
      ∀ entry ∈ entries, ∃ name lines, HasEntry fs dir name ∧ listChild fs root fuel (join dir name) = .ok lines ∧
        entry ∈ lines ∧ fuel < n := by
  cases n with
  | zero => cases h
  | succ n =>
    rw [listEntries_succ] at h
    refine ⟨n, ?_⟩
    cases hskip : skippedDirectory fs dir with
    | true =>
      rw [hskip, if_pos rfl] at h
      obtain rfl := Except.ok.inj h
      refine ⟨fun name hentry => ?_, by simp⟩
      cases hskip.symm.trans hentry.2.1
    | false =>
      rw [hskip, if_neg Bool.false_ne_true] at h
      obtain ⟨children, hc, h⟩ := bind_eq_ok.1 h
      have hchildren := ask_eq_ok.1 hc
      have ⟨hall, honly⟩ := mem_foldlM_append h
      refine ⟨fun name hentry => ?_, fun entry hentry => ?_⟩
      · obtain ⟨children', hchildren', hin⟩ := hentry.2.2
        obtain rfl := Option.some.inj (hchildren.symm.trans hchildren')
        exact hall _ hin
      · rcases honly entry hentry with hin | ⟨child, hchild, lines, hlines, hin⟩
        · cases hin
        · rw [hfs.readDir_eq] at hchildren
          obtain ⟨here, hhere, rfl⟩ := Option.map_eq_some_iff.1 hchildren
          obtain ⟨name, hname, rfl⟩ := List.mem_map.1 hchild
          refine ⟨name, lines, ⟨hfs.entryName dir here hhere name hname, hskip, _, ?_, hchild⟩, hlines, hin, n.lt_succ_self⟩
          rw [hfs.readDir_eq, hhere, Option.map_some]

section
variable {root : Text} {pre : List Text} {name : Text}

theorem entryNames_concat (hpre : ∀ other ∈ pre, EntryName other) (hname : EntryName name) :
    ∀ other ∈ pre ++ [name], EntryName other := by
  intro other ho
  rcases List.mem_append.1 ho with ho | ho
  · exact hpre other ho
  · exact List.mem_singleton.1 ho ▸ hname

theorem join_entryAt (root : Text) (pre : List Text) (name : Text) :
    join (entryAt root pre) name = entryAt root (pre ++ [name]) := by
  rw [entryAt_append]
  rfl

/-- The relative path of a listing's line is the names that lead there. -/
theorem relative_join (hroot : isAbsolute root = true) (hpre : ∀ other ∈ pre, EntryName other) (hname : EntryName name) :
    (components (join (entryAt root pre) name)).drop (components root).length = pre ++ [name] := by
  rw [join_entryAt, components_entryAt hroot (entryNames_concat hpre hname), List.drop_left]

end

/-- Every visit is listed. -/
theorem listed_of_visits (hfs : LawfulTree fs names) {root : Text} (hroot : isAbsolute root = true) {dir : Text}
    {path : List Text} (hv : Visits fs dir path) : ∀ {pre entries : List Text} {n : Nat},
      (∀ name ∈ pre, EntryName name) → dir = entryAt root pre → listEntries fs root n dir = .ok entries →
        ∃ letter, listedKind fs (entryAt dir path) = some letter ∧ entryText letter (pre ++ path) ∈ entries := by
  induction hv with
  | @entry dir name he =>
    rintro pre entries n hpre rfl h
    obtain ⟨fuel, hall, -⟩ := listEntries_ok hfs h
    obtain ⟨lines, hlines, hsub⟩ := hall name he
    obtain ⟨letter, hletter, -, hmem⟩ := listChild_ok hlines
    rw [relative_join hroot hpre he.1] at hmem
    exact ⟨letter, hletter, hsub _ ((hmem _).2 (.inl rfl))⟩
  | @inside dir name rest he hd _ ih =>
    rintro pre entries n hpre rfl h
    obtain ⟨fuel, hall, -⟩ := listEntries_ok hfs h
    obtain ⟨lines, hlines, hsub⟩ := hall name he
    obtain ⟨_, -, hbelow, hmem⟩ := listChild_ok hlines
    obtain ⟨below, hb⟩ := hbelow hd
    obtain ⟨letter, hletter, hin⟩ := ih (entryNames_concat hpre he.1) (join_entryAt root pre name) hb
    rw [List.append_assoc, List.singleton_append] at hin
    exact ⟨letter, hletter, hsub _ ((hmem _).2 (.inr ⟨hd, below, hb, hin⟩))⟩

/-- Nothing else is listed. -/
theorem visits_of_listed (hfs : LawfulTree fs names) {root : Text} (hroot : isAbsolute root = true) (n : Nat) :
    ∀ {pre entries : List Text}, (∀ name ∈ pre, EntryName name) →
      listEntries fs root n (entryAt root pre) = .ok entries → ∀ entry ∈ entries, ∃ path letter,
        Visits fs (entryAt root pre) path ∧ listedKind fs (entryAt (entryAt root pre) path) = some letter ∧
          entry = entryText letter (pre ++ path) := by
  induction n using Nat.strong_induction_on with
  | _ n ih =>
    intro pre entries hpre h entry hentry
    obtain ⟨fuel, -, honly⟩ := listEntries_ok hfs h
    obtain ⟨name, lines, he, hlines, hin, hfuel⟩ := honly entry hentry
    obtain ⟨letter, hletter, -, hmem⟩ := listChild_ok hlines
    rw [relative_join hroot hpre he.1] at hmem
    rcases (hmem entry).1 hin with rfl | ⟨hd, below, hbelow, hin⟩
    · exact ⟨[name], letter, .entry he, hletter, rfl⟩
    · rw [join_entryAt] at hbelow
      obtain ⟨path, letter, hv, hletter, rfl⟩ := ih fuel hfuel (entryNames_concat hpre he.1) hbelow entry hin
      rw [← join_entryAt] at hv hletter
      exact ⟨name :: path, letter, .inside he hd hv, hletter, by rw [List.append_assoc, List.singleton_append]⟩

/-! ## The text of a listing -/

/-- What a listing's text begins with. -/
def LISTING_DOMAIN : Text := "bellows-directory-listing-v1\x00".toList

/-- What a listing's digest is the digest of. -/
def listingText (entries : List Text) : Text :=
  LISTING_DOMAIN ++ (entries.insertionSort (· ≤ ·)).flatMap fun entry => entry ++ ['\x00']

theorem directoryListingDigest_ok {w : World} {root d : Text} :
    directoryListingDigest w root = .ok d ↔
      ∃ entries, listEntries w.fs root w.fuel root = .ok entries ∧ w.digestBytes (listingText entries) = d := by
  unfold directoryListingDigest
  rw [bind_eq_ok]
  exact exists_congr fun entries => and_congr Iff.rfl pure_eq_ok

theorem mem_iff_of_listingText {entries others : List Text} (h : ∀ entry ∈ entries, '\x00' ∉ entry)
    (ho : ∀ entry ∈ others, '\x00' ∉ entry) (heq : listingText entries = listingText others) (entry : Text) :
    entry ∈ entries ↔ entry ∈ others := by
  have hsorted : entries.insertionSort (· ≤ ·) = others.insertionSort (· ≤ ·) := by
    refine flatMap_terminated_inj (fun e he => ?_) (fun e he => ?_) (List.append_cancel_left heq)
    · exact h e ((List.mem_insertionSort _).1 he)
    · exact ho e ((List.mem_insertionSort _).1 he)
  rw [← List.mem_insertionSort (· ≤ ·), hsorted, List.mem_insertionSort]

theorem entryText_inj {letter other : Char} {path path' : List Text} (h : path ≠ [] ∧ ∀ name ∈ path, EntryName name)
    (h' : path' ≠ [] ∧ ∀ name ∈ path', EntryName name) (heq : entryText letter path = entryText other path') :
    letter = other ∧ path = path' := by
  simp only [entryText, List.cons.injEq, true_and] at heq
  have hsplit := List.splitOn_intercalate '/' (fun name hname => (h.2 name hname).2.1) h.1
  rw [heq.2, List.splitOn_intercalate '/' (fun name hname => (h'.2 name hname).2.1) h'.1] at hsplit
  exact ⟨heq.1, hsplit.symm⟩

theorem kindLetter_ne_nul {path : Text} {letter : Char} (h : listedKind fs path = some letter) : letter ≠ '\x00' := by
  obtain ⟨m, -, rfl⟩ := Option.map_eq_some_iff.1 h
  cases m.kind <;> decide

theorem nul_not_mem_entryText {letter : Char} {path : List Text} (hl : letter ≠ '\x00')
    (h : ∀ name ∈ path, EntryName name) : '\x00' ∉ entryText letter path := by
  have hjoined : ∀ path : List Text, (∀ name ∈ path, EntryName name) → '\x00' ∉ ['/'].intercalate path := by
    intro path
    induction path with
    | nil => simp
    | cons name path ih =>
      intro hnames
      have hname := (hnames name List.mem_cons_self).2.2.1
      cases path with
      | nil => simpa using hname
      | cons other path =>
        have hrest := ih fun n hn => hnames n (List.mem_cons_of_mem _ hn)
        simp only [List.intercalate_cons_cons, List.mem_append, List.mem_singleton]
        rintro ((hin | hin) | hin)
        · exact hname hin
        · exact absurd hin (by decide)
        · exact hrest hin
  simp only [entryText, List.mem_cons, not_or]
  exact ⟨hl.symm, by decide, hjoined path h⟩

/-! ## Two listings of one text -/

/-- The walks of two states visit the same, with the same kinds. -/
structure SameVisits (fs fs' : FileSystem) (root : Text) : Prop where
  visits : ∀ path, Visits fs root path ↔ Visits fs' root path
  kind : ∀ path, Visits fs root path → listedKind fs' (entryAt root path) = listedKind fs (entryAt root path)

theorem visits_of_listing {fs' : FileSystem} {names' : Text → Option (List Text)} (hfs : LawfulTree fs names)
    (hfs' : LawfulTree fs' names') {root : Text} (hroot : isAbsolute root = true) {n n' : Nat}
    {entries entries' : List Text} (h : listEntries fs root n root = .ok entries)
    (h' : listEntries fs' root n' root = .ok entries') (hin : ∀ entry ∈ entries, entry ∈ entries') {path : List Text}
    (hv : Visits fs root path) :
    Visits fs' root path ∧ listedKind fs' (entryAt root path) = listedKind fs (entryAt root path) := by
  obtain ⟨letter, hletter, hlisted⟩ := listed_of_visits hfs hroot hv (List.forall_mem_nil EntryName) rfl h
  obtain ⟨path', letter', hv', hletter', heq⟩ := visits_of_listed hfs' hroot n' (List.forall_mem_nil EntryName) h' _ (hin _ hlisted)
  obtain ⟨rfl, rfl⟩ := entryText_inj hv.entryName hv'.entryName heq
  exact ⟨hv', hletter'.trans hletter.symm⟩

theorem nul_not_mem_listed (hfs : LawfulTree fs names) {root : Text} (hroot : isAbsolute root = true) {n : Nat}
    {entries : List Text} (h : listEntries fs root n root = .ok entries) : ∀ entry ∈ entries, '\x00' ∉ entry := by
  intro entry hentry
  obtain ⟨path, letter, hv, hletter, rfl⟩ := visits_of_listed hfs hroot n (List.forall_mem_nil EntryName) h entry hentry
  exact nul_not_mem_entryText (kindLetter_ne_nul hletter) hv.entryName.2

/-- **A listing's text determines its walk.** -/
theorem sameVisits_of_listing {fs' : FileSystem} {names' : Text → Option (List Text)} (hfs : LawfulTree fs names)
    (hfs' : LawfulTree fs' names') {root : Text} (hroot : isAbsolute root = true) {n n' : Nat}
    {entries entries' : List Text} (h : listEntries fs root n root = .ok entries)
    (h' : listEntries fs' root n' root = .ok entries') (heq : listingText entries = listingText entries') :
    SameVisits fs fs' root := by
  have hmem := mem_iff_of_listingText (nul_not_mem_listed hfs hroot h) (nul_not_mem_listed hfs' hroot h') heq
  have hforth : ∀ path, Visits fs root path → _ := fun path =>
    visits_of_listing hfs hfs' hroot h h' fun entry => (hmem entry).1
  have hback : ∀ path, Visits fs' root path → _ := fun path =>
    visits_of_listing hfs' hfs hroot h' h fun entry => (hmem entry).2
  exact ⟨fun path => ⟨fun hv => (hforth path hv).1, fun hv => (hback path hv).1⟩, fun path hv => (hforth path hv).2⟩

end Bellows.Cli.BuildScript
