/-
Directories and what lies below them, by the names on the way: what the calls
of a file system say of each other there (`LawfulTree`), and small file
systems for which all of it holds (`still`).
-/
import Mathlib.Data.List.TakeWhile
import Bellows.Cli.FileSystem

namespace Bellows.Cli

open Text

/-! ## Names -/

/-- What `read_dir` gives the name of: neither `.` nor `..`. -/
def EntryName (name : Text) : Prop :=
  name ≠ [] ∧ '/' ∉ name ∧ '\x00' ∉ name ∧ name ≠ ['.'] ∧ name ≠ ['.', '.']

instance (name : Text) : Decidable (EntryName name) :=
  inferInstanceAs (Decidable (_ ∧ _ ∧ _ ∧ _ ∧ _))

/-- The entry that `names` lead to from `dir`. -/
def entryAt (dir : Text) (names : List Text) : Text := names.foldl join dir

@[simp] theorem entryAt_nil (dir : Text) : entryAt dir [] = dir := rfl

@[simp] theorem entryAt_cons (dir name : Text) (names : List Text) :
    entryAt dir (name :: names) = entryAt (join dir name) names := rfl

theorem entryAt_append (dir : Text) (names names' : List Text) :
    entryAt dir (names ++ names') = entryAt (entryAt dir names) names' := List.foldl_append

theorem EntryName.not_isAbsolute {name : Text} (h : EntryName name) : isAbsolute name = false := by
  obtain ⟨hne, hslash, -⟩ := h
  cases name with
  | nil => exact absurd rfl hne
  | cons c name =>
    have hc : c ≠ '/' := fun heq => hslash (heq ▸ List.mem_cons_self)
    simp [isAbsolute, hc]

/-- Joining a name puts one separator between. -/
theorem join_entryName {dir name : Text} (hdir : isAbsolute dir = true) (h : EntryName name) :
    join dir name = if dir.getLast? = some '/' then dir ++ name else dir ++ '/' :: name := by
  have hne : dir ≠ [] := by
    rintro rfl
    cases hdir
  simp [join, h.not_isAbsolute, hne]

theorem isAbsolute_join {dir name : Text} (hdir : isAbsolute dir = true) (h : EntryName name) :
    isAbsolute (join dir name) = true := by
  have happend : ∀ rest, isAbsolute (dir ++ rest) = true := by
    intro rest
    cases dir with
    | nil => cases hdir
    | cons c dir => exact hdir
  rw [join_entryName hdir h]
  split
  · exact happend _
  · exact happend _

/-- The components of what is ordinary: those of the directory, and the name. -/
theorem components_join {dir name : Text} (hdir : isAbsolute dir = true) (h : EntryName name) :
    components (join dir name) = components dir ++ [name] := by
  have hsplit : name.splitOnP (· == '/') = [name] := by
    refine List.splitOnP_eq_singleton fun c hc => ?_
    exact beq_eq_false_iff_ne.2 fun heq => h.2.1 (heq ▸ hc)
  have hkept : ([name].filter fun part => part != [] && part != ['.']) = [name] := by
    simp [h.1, h.2.2.2.1]
  have hparts : ∀ front : Text, (front ++ '/' :: name).splitOnP (· == '/') = front.splitOnP (· == '/') ++ [name] := by
    intro front
    rw [List.splitOnP_append_cons (p := (· == '/')) front name (beq_self_eq_true '/'), hsplit]
  have habs : isAbsolute (join dir name) = true := isAbsolute_join hdir h
  simp only [components, habs, hdir, if_true, List.append_assoc]
  congr 1
  rw [join_entryName hdir h]
  split
  · next hlast =>
    -- the directory brings the separator
    obtain ⟨front, rfl⟩ : ∃ front, dir = front ++ ['/'] := by
      obtain ⟨hne, hget⟩ := List.getLast?_eq_some_iff.1 hlast
      exact ⟨hne, hget⟩
    have hfront : (front ++ ['/']).splitOnP (· == '/') = front.splitOnP (· == '/') ++ [[]] := by
      rw [List.splitOnP_append_cons (p := (· == '/')) front [] (beq_self_eq_true '/'), List.splitOnP_nil]
    rw [List.append_assoc, List.singleton_append, hparts, hfront, List.filter_append, List.filter_append, hkept]
    simp
  · rw [hparts, List.filter_append, hkept]

theorem components_entryAt {dir : Text} (hdir : isAbsolute dir = true) {names : List Text}
    (h : ∀ name ∈ names, EntryName name) : components (entryAt dir names) = components dir ++ names := by
  induction names generalizing dir with
  | nil => simp
  | cons name names ih =>
    have hname := h name List.mem_cons_self
    rw [entryAt_cons, ih (isAbsolute_join hdir hname) fun n hn => h n (List.mem_cons_of_mem _ hn),
      components_join hdir hname, List.append_assoc, List.singleton_append]

theorem trimRight_entryName {name : Text} (h : EntryName name) (rest : Text) :
    trimRight (name.reverse ++ rest) = name.reverse ++ rest := by
  obtain ⟨hne, hslash, -, hdot, -⟩ := h
  cases hr : name.reverse with
  | nil => exact absurd (List.reverse_eq_nil_iff.1 hr) hne
  | cons c tail =>
    have hmem : ∀ d ∈ c :: tail, d ≠ '/' := by
      rintro d hd rfl
      exact hslash (List.mem_reverse.1 (hr ▸ hd))
    have hc : c ≠ '/' := hmem c List.mem_cons_self
    by_cases hcdot : c = '.'
    · cases tail with
      | nil =>
        subst hcdot
        exact absurd (List.reverse_eq_iff.1 hr) hdot
      | cons d tail =>
        have hd : d ≠ '/' := hmem d (by simp)
        simp [trimRight, hcdot, hd]
    · simp [trimRight, hc, hcdot]

theorem fileName_join {name : Text} (h : EntryName name) (dir : Text) : fileName (join dir name) = name := by
  have hkept : ∀ c ∈ name.reverse, (c != '/') = true := by
    intro c hc
    refine bne_iff_ne.2 ?_
    rintro rfl
    exact h.2.1 (List.mem_reverse.1 hc)
  have hname : fileName name = name := by
    have htrim := trimRight_entryName h []
    rw [List.append_nil] at htrim
    rw [fileName, htrim, List.takeWhile_eq_self_iff.2 hkept, List.reverse_reverse]
  have hlast : ∀ front, fileName (front ++ '/' :: name) = name := by
    intro front
    rw [fileName, List.reverse_append, List.reverse_cons, List.append_assoc, List.singleton_append,
      trimRight_entryName h, List.takeWhile_append_of_pos hkept]
    simp
  unfold join
  split
  · exact hname
  · split
    · next hslash =>
      obtain ⟨front, rfl⟩ := List.getLast?_eq_some_iff.1 (beq_iff_eq.1 hslash)
      rw [List.append_assoc, List.singleton_append]
      exact hlast front
    · exact hlast dir

/-- Entries of one directory differ in their names. -/
theorem join_inj {dir name other : Text} (h : EntryName name) (ho : EntryName other)
    (heq : join dir name = join dir other) : name = other := by
  rw [← fileName_join h dir, heq, fileName_join ho]

/-! ## Laws -/

/-- What the calls say of a directory and its entries, whose names are
`names`: the file system does not change between them, and a directory holds
the same under every path that resolves to it. -/
structure LawfulTree (fs : FileSystem) (names : Text → Option (List Text)) : Prop where
  readDir_eq : ∀ dir, fs.readDir dir = (names dir).map fun here => here.map (join dir)
  entryName : ∀ dir here, names dir = some here → ∀ name ∈ here, EntryName name
  isAbsolute_canonicalize : ∀ path r, fs.canonicalize path = some r → isAbsolute r = true
  canonicalize_idem : ∀ path r, fs.canonicalize path = some r → fs.canonicalize r = some r
  /-- No link is left in what a path resolves to. -/
  symlinkMetadata_canonicalize : ∀ path r, fs.canonicalize path = some r → fs.symlinkMetadata r = fs.metadata path
  /-- Empty components and `.` lead nowhere else. -/
  canonicalize_components : ∀ path other r r', components path = components other →
    fs.canonicalize path = some r → fs.canonicalize other = some r' → r = r'
  exists_canonicalize : ∀ path m, fs.symlinkMetadata path = some m → m.kind ≠ .symlink →
    ∃ r, fs.canonicalize path = some r
  names_canonicalize : ∀ dir r, fs.canonicalize dir = some r → names dir = names r
  entry_canonicalize : ∀ dir r name, fs.canonicalize dir = some r → EntryName name →
    fs.symlinkMetadata (join dir name) = fs.symlinkMetadata (join r name) ∧
      fs.metadata (join dir name) = fs.metadata (join r name) ∧
        fs.canonicalize (join dir name) = fs.canonicalize (join r name)
  /-- An entry that is not a link lies where its directory does. -/
  canonicalize_entry : ∀ dir r name m, fs.canonicalize dir = some r → EntryName name →
    fs.symlinkMetadata (join dir name) = some m → m.kind ≠ .symlink →
      fs.canonicalize (join dir name) = some (join r name)

theorem LawfulTree.mem_readDir {fs : FileSystem} {names : Text → Option (List Text)} (h : LawfulTree fs names)
    {dir name : Text} (hname : EntryName name) :
    (∃ children, fs.readDir dir = some children ∧ join dir name ∈ children) ↔
      ∃ here, names dir = some here ∧ name ∈ here := by
  rw [h.readDir_eq]
  constructor
  · rintro ⟨children, hc, hm⟩
    obtain ⟨here, hhere, rfl⟩ := Option.map_eq_some_iff.1 hc
    obtain ⟨other, ho, heq⟩ := List.mem_map.1 hm
    obtain rfl := join_inj (h.entryName dir here hhere other ho) hname heq
    exact ⟨here, hhere, ho⟩
  · rintro ⟨here, hhere, hm⟩
    exact ⟨here.map (join dir), by rw [hhere, Option.map_some], List.mem_map_of_mem hm⟩

/-! ## File systems without links -/

/-- Regular files and directories last changed at the epoch. -/
def stillMetadata (files directories : List Text) (path : Text) : Option Metadata :=
  if path ∈ files then some ⟨.file, 0, 0, 0⟩
  else if path ∈ directories then some ⟨.directory, 0, 0, 0⟩
  else none

/-- The names of the entries whose path is that of `dir` and a name. -/
def stillNames (files directories : List Text) (dir : Text) : Option (List Text) :=
  if dir ∈ directories then
    some (((files ++ directories).filter fun path => EntryName (fileName path) ∧ join dir (fileName path) = path).map
      fileName)
  else none

/-- The files and directories named, each known under that one path. -/
def FileSystem.still (files directories : List Text) (digest : Text → Text) : FileSystem where
  metadata := stillMetadata files directories
  symlinkMetadata := stillMetadata files directories
  metadata_eq := fun _ _ h _ => h
  canonicalize := fun path => (stillMetadata files directories path).map fun _ => path
  readDir := fun dir => (stillNames files directories dir).map fun here => here.map (join dir)
  digest := fun path => if path ∈ files then some (digest path) else none

section
variable {files directories : List Text} {digest : Text → Text}

theorem eq_of_canonicalize_still {path r : Text} (h : (FileSystem.still files directories digest).canonicalize path = some r) :
    r = path ∧ ∃ m, stillMetadata files directories path = some m := by
  obtain ⟨m, hm, rfl⟩ := Option.map_eq_some_iff.1 h
  exact ⟨rfl, m, hm⟩

theorem canonicalize_still {path : Text} {m : Metadata} (h : stillMetadata files directories path = some m) :
    (FileSystem.still files directories digest).canonicalize path = some path :=
  Option.map_eq_some_iff.2 ⟨m, h, rfl⟩

theorem mem_of_stillMetadata {path : Text} {m : Metadata} (h : stillMetadata files directories path = some m) :
    path ∈ files ++ directories := by
  unfold stillMetadata at h
  split at h
  · exact List.mem_append_left _ ‹_›
  · split at h
    · exact List.mem_append_right _ ‹_›
    · cases h

theorem FileSystem.lawful_still : (FileSystem.still files directories digest).Lawful where
  canonicalize_idem := by
    intro path r h
    obtain ⟨rfl, _⟩ := eq_of_canonicalize_still h
    exact h
  digest_canonicalize := by
    intro path r h
    obtain ⟨rfl, _⟩ := eq_of_canonicalize_still h
    rfl
  canonicalize_of_digest := by
    intro path d h
    obtain ⟨hmem, -⟩ := Option.ite_none_right_eq_some.1 h
    exact ⟨path, canonicalize_still (if_pos hmem)⟩
  symlinkMetadata_of_digest := by
    intro path d h
    obtain ⟨hmem, -⟩ := Option.ite_none_right_eq_some.1 h
    exact ⟨_, if_pos hmem, by decide⟩

/-- Absolute paths, one for each place. -/
def SpelledOnce (paths : List Text) : Prop :=
  (∀ path ∈ paths, isAbsolute path = true) ∧
    ∀ path ∈ paths, ∀ other ∈ paths, components path = components other → path = other

instance (paths : List Text) : Decidable (SpelledOnce paths) := inferInstanceAs (Decidable (_ ∧ _))

theorem lawfulTree_still (h : SpelledOnce (files ++ directories)) :
    LawfulTree (.still files directories digest) (stillNames files directories) where
  readDir_eq := fun _ => rfl
  entryName := by
    intro dir here hhere name hname
    obtain ⟨-, hsome⟩ := Option.ite_none_right_eq_some.1 hhere
    obtain rfl := Option.some.inj hsome
    obtain ⟨path, hpath, rfl⟩ := List.mem_map.1 hname
    exact (of_decide_eq_true (List.mem_filter.1 hpath).2).1
  isAbsolute_canonicalize := by
    intro path r hr
    obtain ⟨rfl, m, hm⟩ := eq_of_canonicalize_still hr
    exact h.1 _ (mem_of_stillMetadata hm)
  canonicalize_idem := FileSystem.lawful_still.canonicalize_idem
  symlinkMetadata_canonicalize := by
    intro path r hr
    obtain ⟨rfl, _⟩ := eq_of_canonicalize_still hr
    rfl
  canonicalize_components := by
    intro path other r r' hc hr hr'
    obtain ⟨rfl, m, hm⟩ := eq_of_canonicalize_still hr
    obtain ⟨rfl, m', hm'⟩ := eq_of_canonicalize_still hr'
    exact h.2 _ (mem_of_stillMetadata hm) _ (mem_of_stillMetadata hm') hc
  exists_canonicalize := fun path m hm _ => ⟨path, canonicalize_still hm⟩
  names_canonicalize := by
    intro dir r hr
    obtain ⟨rfl, _⟩ := eq_of_canonicalize_still hr
    rfl
  entry_canonicalize := by
    intro dir r name hr _
    obtain ⟨rfl, _⟩ := eq_of_canonicalize_still hr
    exact ⟨rfl, rfl, rfl⟩
  canonicalize_entry := by
    intro dir r name m hr _ hm _
    obtain ⟨rfl, _⟩ := eq_of_canonicalize_still hr
    exact canonicalize_still hm

end

end Bellows.Cli
