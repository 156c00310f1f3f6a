/-
What the digests recorded for a declared directory determine: everything the
walk visits below it (`directoryInputs_complete`).

The walk visits neither `target`, `.git` and directories tagged as caches nor
anything through a link to a directory, and a link to a file is recorded as
the file it resolved to. What changes there changes no digest
(`builtInputs_not_complete`).
-/
import Mathlib.Data.Set.Function
import Bellows.Cli.Candidate
import Bellows.Cli.CaptureFacts
import Bellows.Cli.Listing

namespace Bellows.Cli.BuildScript

open Text Bellows.Core Checked

variable {fs : FileSystem} {names : Text → Option (List Text)}

/-! ## The walk -/

/-- The regular file a path ends at: itself, or what a link resolves to. -/
inductive LeadsTo (fs : FileSystem) (path : Text) : Text → Prop where
  | file {m : Metadata} (h : fs.symlinkMetadata path = some m) (hk : m.kind = .file) : LeadsTo fs path path
  | link {m : Metadata} {target : Text} (h : fs.symlinkMetadata path = some m) (hk : m.kind = .symlink)
      (ht : fs.canonicalize path = some target) (hf : fs.isFile target = true) : LeadsTo fs path target

theorem walkInputs_leadsTo {path target : Text} {n : Nat} {files : List Text} (h : walkInputs fs n path = .ok files)
    (ht : LeadsTo fs path target) : target ∈ files := by
  cases n with
  | zero => cases h
  | succ n =>
    obtain ⟨m, hm, h⟩ := bind_eq_ok.1 h
    have hmeta := ask_eq_ok.1 hm
    cases ht with
    | file hm' hk =>
      obtain rfl := Option.some.inj (hmeta.symm.trans hm')
      rw [hk] at h
      exact pure_eq_ok.1 h ▸ List.mem_singleton_self _
    | link hm' hk hc hf =>
      obtain rfl := Option.some.inj (hmeta.symm.trans hm')
      rw [hk] at h
      obtain ⟨r, hr, h⟩ := bind_eq_ok.1 h
      obtain rfl := Option.some.inj ((ask_eq_ok.1 hr).symm.trans hc)
      rw [if_pos hf] at h
      exact pure_eq_ok.1 h ▸ List.mem_singleton_self _

theorem walkInputs_entry {dir : Text} {n : Nat} {files children : List Text} (h : walkInputs fs n dir = .ok files)
    (hd : IsDirectory fs dir) (hskip : skippedDirectory fs dir = false) (hc : fs.readDir dir = some children) :
    ∃ fuel, ∀ child ∈ children, ∃ below, walkInputs fs fuel child = .ok below ∧ ∀ file ∈ below, file ∈ files := by
  cases n with
  | zero => cases h
  | succ n =>
    obtain ⟨m, hm, h⟩ := bind_eq_ok.1 h
    obtain ⟨m', hm', hk⟩ := hd
    obtain rfl := Option.some.inj ((ask_eq_ok.1 hm).symm.trans hm')
    rw [hk, hskip, hc] at h
    exact ⟨n, (mem_foldlM_append h).1⟩

/-- What the walk finds can be resolved. -/
theorem canonicalize_walked (hfs : LawfulTree fs names) (n : Nat) : ∀ {path : Text} {files : List Text},
    walkInputs fs n path = .ok files → ∀ file ∈ files, ∃ r, fs.canonicalize file = some r := by
  induction n with
  | zero =>
    intro path files h
    cases h
  | succ n ih =>
    intro path files h file hfile
    obtain ⟨m, hm, h⟩ := bind_eq_ok.1 h
    have hmeta := ask_eq_ok.1 hm
    cases hk : m.kind with
    | directory =>
      rw [hk] at h
      cases hskip : skippedDirectory fs path with
      | true =>
        rw [hskip] at h
        cases pure_eq_ok.1 h
        cases hfile
      | false =>
        rw [hskip] at h
        obtain ⟨children, -, h⟩ := bind_eq_ok.1 h
        rcases (mem_foldlM_append h).2 file hfile with hin | ⟨child, -, below, hbelow, hin⟩
        · cases hin
        · exact ih hbelow file hin
    | file =>
      rw [hk] at h
      cases pure_eq_ok.1 h
      obtain rfl := List.mem_singleton.1 hfile
      exact hfs.exists_canonicalize _ m hmeta (by rw [hk]; decide)
    | symlink =>
      rw [hk] at h
      obtain ⟨r, hr, h⟩ := bind_eq_ok.1 h
      have hcanonical := hfs.canonicalize_idem _ _ (ask_eq_ok.1 hr)
      cases pure_eq_ok.1 h
      split at hfile
      · obtain rfl := List.mem_singleton.1 hfile
        exact ⟨_, hcanonical⟩
      · cases hfile
    | other =>
      rw [hk] at h
      cases pure_eq_ok.1 h
      cases hfile

theorem Visits.not_skipped {dir : Text} {path : List Text} (h : Visits fs dir path) :
    skippedDirectory fs dir = false := by
  cases h with
  | entry he => exact he.2.1
  | inside he _ _ => exact he.2.1

theorem IsDirectory.not_symlink {path : Text} (h : IsDirectory fs path) :
    ∃ m, fs.symlinkMetadata path = some m ∧ m.kind ≠ .symlink := by
  obtain ⟨m, hm, hk⟩ := h
  exact ⟨m, hm, by rw [hk]; decide⟩

/-- Whether a directory is skipped is told by its name and what it holds. -/
theorem skippedDirectory_join (hfs : LawfulTree fs names) {dir r name : Text} (hname : EntryName name)
    (hc : fs.canonicalize (join dir name) = some (join r name)) :
    skippedDirectory fs (join dir name) = skippedDirectory fs (join r name) := by
  have htag := (hfs.entry_canonicalize _ _ "CACHEDIR.TAG".toList hc (by decide)).2.1
  simp only [skippedDirectory, isCacheDirectory, FileSystem.isFile, fileName_join hname, htag]

/-- **The walk misses nothing it visits**: whatever path the directory is
walked under, each regular file below it is found, in some spelling. -/
theorem exists_walked (hfs : LawfulTree fs names) {r : Text} {path : List Text} (hv : Visits fs r path) :
    ∀ {dir target : Text} {n : Nat} {files : List Text}, fs.canonicalize dir = some r → IsDirectory fs dir →
      skippedDirectory fs dir = false → walkInputs fs n dir = .ok files → LeadsTo fs (entryAt r path) target →
        ∃ file ∈ files, fs.canonicalize file = some target := by
  -- the entry of the resolved directory is one of the directory walked
  have hstep : ∀ {r dir name : Text} {n : Nat} {files : List Text}, HasEntry fs r name → fs.canonicalize dir = some r →
      IsDirectory fs dir → skippedDirectory fs dir = false → walkInputs fs n dir = .ok files →
        ∃ fuel below, walkInputs fs fuel (join dir name) = .ok below ∧ ∀ file ∈ below, file ∈ files := by
    intro r dir name n files he hc hd hskip h
    have hnames := (hfs.mem_readDir he.1).1 he.2.2
    rw [← hfs.names_canonicalize dir r hc] at hnames
    obtain ⟨children, hchildren, hin⟩ := (hfs.mem_readDir he.1).2 hnames
    obtain ⟨fuel, hall⟩ := walkInputs_entry h hd hskip hchildren
    obtain ⟨below, hbelow, hsub⟩ := hall _ hin
    exact ⟨fuel, below, hbelow, hsub⟩
  induction hv with
  | @entry r name he =>
    intro dir target n files hc hd hskip h ht
    obtain ⟨fuel, below, hbelow, hsub⟩ := hstep he hc hd hskip h
    obtain ⟨hmeta, -, hcanonical⟩ := hfs.entry_canonicalize dir r name hc he.1
    cases ht with
    | file hm hk =>
      have hm' := hmeta.trans hm
      have hin := walkInputs_leadsTo hbelow (.file hm' hk)
      exact ⟨_, hsub _ hin, hfs.canonicalize_entry dir r name _ hc he.1 hm' (by rw [hk]; decide)⟩
    | link hm hk hr hf =>
      have hin := walkInputs_leadsTo hbelow (.link (hmeta.trans hm) hk (hcanonical.trans hr) hf)
      exact ⟨_, hsub _ hin, hfs.canonicalize_idem _ _ hr⟩
  | @inside r name rest he hdir hv ih =>
    intro dir target n files hc hd hskip h ht
    obtain ⟨fuel, below, hbelow, hsub⟩ := hstep he hc hd hskip h
    obtain ⟨hmeta, -, -⟩ := hfs.entry_canonicalize dir r name hc he.1
    have hdir' : IsDirectory fs (join dir name) := by
      obtain ⟨m, hm, hk⟩ := hdir
      exact ⟨m, hmeta.trans hm, hk⟩
    obtain ⟨m, hm, hk⟩ := hdir'.not_symlink
    have hc' := hfs.canonicalize_entry dir r name m hc he.1 hm hk
    have hskip' := (skippedDirectory_join hfs he.1 hc').trans hv.not_skipped
    obtain ⟨file, hin, hfile⟩ := ih hc' hdir' hskip' hbelow ht
    exact ⟨file, hsub file hin, hfile⟩

/-! ## What is recorded -/

/-- Where a record has the digest of a path. -/
inductive Place where
  | file (normalized : Text)
  | hostFile (absolute : Text)
  /-- The listing of a directory that is itself a root stands among the
  environment inputs. -/
  | listing (normalized : Text)
  deriving DecidableEq

def isRoot (w : World) (path : Text) : Bool :=
  match isRootDirectory w (w.identity.normalizer.normalize path) path with
  | .ok root => root
  | .error _ => false

def placeOf (w : World) (path : Text) : Place :=
  if isRoot w path then .listing (w.identity.normalizer.normalize path)
  else if (validateNormalizedInputPath (w.identity.normalizer.normalize path)).isOk then
    .file (w.identity.normalizer.normalize path)
  else .hostFile path

/-- The digest of a path, as it is recorded at a place. -/
def placeDigest (w : World) (path : Text) : Place → Except CaptureError Text
  | .listing _ => directoryListingDigest w path
  | .file _ | .hostFile _ => inputDigest w path

def addAt (inputs : Inputs) (entry : Place × Text) : Inputs :=
  match entry.1 with
  | .file normalized => { inputs with files := inputs.files ++ [⟨normalized, entry.2⟩] }
  | .hostFile absolute => { inputs with hostFiles := inputs.hostFiles ++ [⟨absolute, entry.2⟩] }
  | .listing normalized => { inputs with listings := inputs.listings ++ [(LISTING_PREFIX ++ normalized, entry.2)] }

/-- The entry is the path's. -/
def EntryOf (w : World) (path : Text) (entry : Place × Text) : Prop :=
  entry.1 = placeOf w (resolved w path) ∧ placeDigest w (resolved w path) entry.1 = .ok entry.2

theorem isDirectory_of_isRoot {w : World} {path : Text} (h : isRoot w path = true) : IsDirectory w.fs path := by
  unfold isRoot isRootDirectory at h
  split at h
  · next root heq =>
    subst h
    split at heq
    · obtain ⟨m, hm, hkind⟩ := bind_eq_ok.1 heq
      exact ⟨m, ask_eq_ok.1 hm, beq_iff_eq.1 (pure_eq_ok.1 hkind)⟩
    · cases pure_eq_ok.1 heq
  · cases h

theorem record_eq_addAt {w : World} {listing : Option Text} {inputs after : Inputs} {path : Text}
    (h : record w listing inputs path = .ok after) : ∃ entry, EntryOf w path entry ∧ after = addAt inputs entry := by
  simp only [record] at h
  split at h
  · cases h
  obtain ⟨root, hroot, h⟩ := bind_eq_ok.1 h
  have hisRoot : isRoot w (resolved w path) = root := by
    rw [isRoot, hroot]
  cases root with
  | true =>
    rw [if_pos rfl] at h
    obtain ⟨digest, hd, h⟩ := bind_eq_ok.1 h
    obtain rfl := pure_eq_ok.1 h
    exact ⟨(.listing _, digest), ⟨by rw [placeOf, if_pos hisRoot], hd⟩, rfl⟩
  | false =>
    rw [if_neg Bool.false_ne_true] at h
    split at h
    · cases h
    obtain ⟨digest, hd, h⟩ := bind_eq_ok.1 h
    obtain rfl := pure_eq_ok.1 h
    rw [← Bool.not_eq_true] at hisRoot
    by_cases hvalid : (validateNormalizedInputPath (w.identity.normalizer.normalize (resolved w path))).isOk = true
    · refine ⟨(.file _, digest), ⟨by rw [placeOf, if_neg hisRoot, if_pos hvalid], hd⟩, ?_⟩
      rw [Inputs.push, if_pos hvalid]
      rfl
    · refine ⟨(.hostFile _, digest), ⟨by rw [placeOf, if_neg hisRoot, if_neg hvalid], hd⟩, ?_⟩
      rw [Inputs.push, if_neg hvalid]
      rfl

/-- The loop adds one entry for each path. -/
theorem foldlM_record {w : World} {listing : Option Text} : ∀ {paths : List Text} {inputs after : Inputs},
    paths.foldlM (record w listing) inputs = .ok after →
      ∃ entries, List.Forall₂ (EntryOf w) paths entries ∧ after = entries.foldl addAt inputs
  | [], inputs, after, h => ⟨[], .nil, (pure_eq_ok.1 h).symm⟩
  | path :: paths, inputs, after, h => by
    rw [List.foldlM_cons] at h
    obtain ⟨next, hstep, hrest⟩ := bind_eq_ok.1 h
    obtain ⟨entry, hentry, rfl⟩ := record_eq_addAt hstep
    obtain ⟨entries, hentries, rfl⟩ := foldlM_record hrest
    exact ⟨entry :: entries, .cons hentry hentries, rfl⟩

def fileAt : Place × Text → Option FileInput
  | (.file normalized, digest) => some ⟨normalized, digest⟩
  | _ => none

def hostFileAt : Place × Text → Option FileInput
  | (.hostFile absolute, digest) => some ⟨absolute, digest⟩
  | _ => none

def listingAt : Place × Text → Option (Text × Text)
  | (.listing normalized, digest) => some (LISTING_PREFIX ++ normalized, digest)
  | _ => none

theorem foldl_addAt (entries : List (Place × Text)) : ∀ inputs : Inputs,
    entries.foldl addAt inputs = {
      files := inputs.files ++ entries.filterMap fileAt
      hostFiles := inputs.hostFiles ++ entries.filterMap hostFileAt
      listings := inputs.listings ++ entries.filterMap listingAt } := by
  induction entries with
  | nil =>
    intro inputs
    simp
  | cons entry entries ih =>
    intro inputs
    obtain ⟨place, digest⟩ := entry
    rw [List.foldl_cons, ih]
    cases place <;> simp [addAt, fileAt, hostFileAt, listingAt, List.filterMap_cons]

/-- What stands for the first of its kind in one list is the first of its kind
in the other. -/
theorem find?_filterMap_of_first {α β γ : Type} {r : α → β → Prop} {f : β → Option γ} {p : α → Bool} {q : γ → Bool}
    {l : List α} {entries : List β} (h : List.Forall₂ r l entries) {first : α} (hfirst : l.find? p = some first)
    (hof : ∀ a b c, r a b → f b = some c → q c = true → p a = true)
    (hhas : ∀ b, r first b → ∃ c, f b = some c ∧ q c = true) :
    ∃ b c, r first b ∧ f b = some c ∧ (entries.filterMap f).find? q = some c := by
  induction h with
  | nil => cases hfirst
  | @cons a b l entries hab hrest ih =>
    rw [List.find?_cons] at hfirst
    cases hp : p a with
    | true =>
      rw [hp] at hfirst
      obtain rfl := Option.some.inj hfirst
      obtain ⟨c, hc, hq⟩ := hhas b hab
      exact ⟨b, c, hab, hc, by rw [List.filterMap_cons_some hc, List.find?_cons, hq]⟩
    | false =>
      rw [hp] at hfirst
      obtain ⟨b', c, hb', hc, hfind⟩ := ih hfirst
      refine ⟨b', c, hb', hc, ?_⟩
      cases hb : f b with
      | none => rw [List.filterMap_cons_none hb, hfind]
      | some other =>
        have hq : q other = false := by
          rw [← Bool.not_eq_true]
          intro hq
          rw [hof a b other hab hb hq] at hp
          cases hp
        rw [List.filterMap_cons_some hb, List.find?_cons, hq, hfind]

/-- A record has a digest at a place. -/
def Record.Has (digestBytes : Text → Text) (record : Record) : Place → Text → Prop
  | .file normalized, digest => ⟨normalized, digest⟩ ∈ record.files
  | .hostFile absolute, digest => ⟨absolute, digest⟩ ∈ record.hostFiles
  | .listing normalized, digest => .capture digestBytes (LISTING_PREFIX ++ normalized) (some digest) ∈ record.env

/-- The path was read for what a directive declares. -/
def ReadFor (w : World) (declared path : Text) : Prop :=
  ∃ paths, declaredPaths w declared = .ok paths ∧ ∃ p ∈ paths, w.fs.canonicalize p = some path

/-- Declared paths can be resolved. -/
theorem canonicalize_declared {w : World} (hfs : LawfulTree w.fs names) {declared : Text} {paths : List Text}
    (h : declaredPaths w declared = .ok paths) : ∀ p ∈ paths, ∃ r, w.fs.canonicalize p = some r := by
  intro p hp
  unfold declaredPaths at h
  simp only at h
  split at h
  · cases h
  obtain ⟨below, hbelow, h⟩ := bind_eq_ok.1 h
  obtain ⟨m, hm, h⟩ := bind_eq_ok.1 h
  have hwalked := canonicalize_walked hfs _ hbelow
  cases pure_eq_ok.1 h
  split at hp
  · next hk =>
    rcases List.mem_append.1 hp with hp | hp
    · exact hwalked p hp
    · obtain rfl := List.mem_singleton.1 hp
      exact hfs.exists_canonicalize _ m (ask_eq_ok.1 hm) (by rw [hk]; decide)
  · exact hwalked p hp

/-- What is read for a declared path is among the paths that are recorded. -/
theorem mem_of_readFor {w : World} (hfs : LawfulTree w.fs names) {stdout : Text} {paths : List Text}
    (hpaths : inputPaths w stdout = .ok paths) {declared : Text} (hdeclared : declared ∈ declaredFiles stdout)
    {path : Text} (hread : ReadFor w declared path) : ∃ p ∈ sortedPaths paths, resolved w p = path := by
  rw [inputPaths, if_neg (List.ne_nil_of_mem hdeclared)] at hpaths
  have ⟨hall, honly⟩ := mem_foldlM_append hpaths
  obtain ⟨own, hown, hsub⟩ := hall declared hdeclared
  obtain ⟨own', hown', p, hp, hr⟩ := hread
  obtain rfl := Except.ok.inj (hown.symm.trans hown')
  -- another spelling may stand for `p`, but it resolves alike
  obtain ⟨kept, hkept, hcomponents⟩ := exists_mem_destutter components _
    ((List.mem_insertionSort (fun a b => pathKey a ≤ pathKey b)).2 (hsub p hp))
  have hkeptPath : kept ∈ paths := (List.mem_insertionSort _).1 ((List.destutter_sublist _ _).subset hkept)
  refine ⟨kept, hkept, ?_⟩
  rcases honly kept hkeptPath with hin | ⟨other, -, others, hothers, hin⟩
  · cases hin
  · obtain ⟨r, hc⟩ := canonicalize_declared hfs hothers kept hin
    rw [resolved, hc, Option.getD_some]
    exact hfs.canonicalize_components kept p r path hcomponents hc hr

/-- Something else is recorded at the path's place: another path, read before
it, or a variable with the name of its listing. -/
def Dropped (w : World) (stdout path : Text) : Prop :=
  (∃ paths other, inputPaths w stdout = .ok paths ∧
      ((sortedPaths paths).map (resolved w)).find? (fun other => placeOf w other = placeOf w path) = some other ∧
      other ≠ path) ∨
    ∃ normalized, placeOf w path = .listing normalized ∧ LISTING_PREFIX ++ normalized ∈ declaredEnv stdout

theorem envInput_name (m : Machine) (a : BuildIdentity) (leaked : List Text) (name : Text) :
    (envInput m a leaked name).name = name := by
  unfold envInput
  split
  · rfl
  · dsimp only
    split <;> rfl

/-- A listing is found by its name, unless a variable has it. -/
theorem find?_envInputs {m : Machine} {a : BuildIdentity} {leaked : List Text} {stdout : Text}
    {listings : List (Text × Text)} {name digest : Text} (hnot : name ∉ declaredEnv stdout)
    (h : listings.find? (fun listing => listing.1 = name) = some (name, digest)) :
    (envInputs m a leaked stdout listings).find? (fun input => input.name = name) =
      some (.capture m.digestBytes name (some digest)) := by
  have hdeclared : ((declaredEnv stdout).map (envInput m a leaked)).find? (fun input => input.name = name) = none := by
    rw [List.find?_eq_none]
    intro input hin hname
    obtain ⟨declared, hdeclared, rfl⟩ := List.mem_map.1 hin
    rw [envInput_name, decide_eq_true_eq] at hname
    exact hnot (hname ▸ hdeclared)
  have hlisting : (listings.map fun listing => EnvInput.capture m.digestBytes listing.1 (some listing.2)).find?
      (fun input => input.name = name) = some (.capture m.digestBytes name (some digest)) := by
    rw [List.find?_map]
    show Option.map _ (listings.find? fun listing => listing.1 = name) = _
    rw [h]
    rfl
  rw [envInputs, List.append_assoc, List.find?_append, List.find?_append, hdeclared, hlisting]
  rfl

section
variable {m : Machine} {a : BuildIdentity} {started : Int} {tree : List UInt8} {stdout : Text} {listing : Option Text}
  {captured : Record} {w : World}

/-- What a capture that succeeds is made of. -/
theorem capture_eq_ok (h : capture m a started tree stdout listing = .ok captured) (hw : m.world a.toIdentity started = w) :
    ∃ paths entries, inputPaths w stdout = .ok paths ∧ List.Forall₂ (EntryOf w) (sortedPaths paths) entries ∧
      captured.files = KeyedSort.sortedBy FileInput.path (entries.filterMap fileAt) ∧
      captured.hostFiles = KeyedSort.sortedBy FileInput.path (entries.filterMap hostFileAt) ∧
      captured.env = KeyedSort.sortedBy EnvInput.name
        (envInputs m a (leakedRoots a tree) stdout (entries.filterMap listingAt)) := by
  subst hw
  obtain ⟨sorted, hinputs, h⟩ := bind_eq_ok.1 h
  obtain rfl := pure_eq_ok.1 h
  obtain ⟨paths, hpaths, hinputs⟩ := bind_eq_ok.1 hinputs
  obtain ⟨unsorted, hfold, hinputs⟩ := bind_eq_ok.1 hinputs
  obtain rfl := pure_eq_ok.1 hinputs
  obtain ⟨entries, hentries, rfl⟩ := foldlM_record hfold
  rw [foldl_addAt]
  exact ⟨paths, entries, hpaths, hentries, rfl, rfl, rfl⟩

/-- **What is read is recorded, unless something else is in its place.** -/
theorem capture_has (h : capture m a started tree stdout listing = .ok captured)
    (hw : m.world a.toIdentity started = w) (hfs : LawfulTree w.fs names) {declared path : Text}
    (hdeclared : declared ∈ declaredFiles stdout) (hread : ReadFor w declared path) (hkept : ¬ Dropped w stdout path) :
    ∃ digest, placeDigest w path (placeOf w path) = .ok digest ∧ captured.Has w.digestBytes (placeOf w path) digest := by
  obtain ⟨paths, entries, hpaths, hentries, hfiles, hhost, henv⟩ := capture_eq_ok h hw
  obtain ⟨p, hp, rfl⟩ := mem_of_readFor hfs hpaths hdeclared hread
  set path := resolved w p with hpath
  -- the first path read with this place is the path itself
  obtain ⟨first, hfirst, hresolved⟩ : ∃ first,
      (sortedPaths paths).find? (fun q => placeOf w (resolved w q) = placeOf w path) = some first ∧
        resolved w first = path := by
    obtain ⟨first, hfirst⟩ : ∃ first,
        (sortedPaths paths).find? (fun q => placeOf w (resolved w q) = placeOf w path) = some first :=
      Option.isSome_iff_exists.1 (List.find?_isSome.2 ⟨p, hp, by simp [hpath]⟩)
    refine ⟨first, hfirst, ?_⟩
    by_contra hne
    refine hkept (.inl ⟨paths, resolved w first, hpaths, ?_, hne⟩)
    rw [List.find?_map]
    show Option.map _ ((sortedPaths paths).find? fun q => placeOf w (resolved w q) = placeOf w path) = _
    rw [hfirst]
    rfl
  have hof : ∀ {γ : Type} (f : Place × Text → Option γ) (q : γ → Bool),
      (∀ entry c, f entry = some c → q c = true → entry.1 = placeOf w path) →
      (∀ digest, ∃ c, f (placeOf w path, digest) = some c ∧ q c = true) →
        ∃ digest c, placeDigest w path (placeOf w path) = .ok digest ∧ f (placeOf w path, digest) = some c ∧
          (entries.filterMap f).find? q = some c := by
    intro γ f q hplace hhas
    obtain ⟨entry, c, ⟨hentry, hdigest⟩, hc, hfind⟩ := find?_filterMap_of_first (f := f) (q := q) hentries hfirst
      (fun q' entry c hentry hc hq => decide_eq_true (hentry.1.symm.trans (hplace entry c hc hq)))
      (fun entry hentry => by
        obtain ⟨place, digest⟩ := entry
        obtain rfl : place = placeOf w path := hresolved ▸ hentry.1
        exact hhas digest)
    obtain ⟨place, digest⟩ := entry
    rw [hresolved] at hentry hdigest
    obtain rfl : place = placeOf w path := hentry
    exact ⟨digest, c, hdigest, hc, hfind⟩
  have hbytes : w.digestBytes = m.digestBytes := by
    rw [← hw]
    rfl
  cases hplace : placeOf w path with
  | file normalized =>
    rw [hplace] at hof
    obtain ⟨digest, c, hdigest, hc, hfind⟩ := hof fileAt (fun input => input.path = normalized)
      (fun entry c hc hq => by
        obtain ⟨_ | _ | _, _⟩ := entry <;> cases hc
        exact congrArg Place.file (of_decide_eq_true hq))
      (fun digest => ⟨_, rfl, decide_eq_true rfl⟩)
    obtain rfl := Option.some.inj hc
    refine ⟨digest, hdigest, ?_⟩
    rw [Record.Has, hfiles, KeyedSort.mem_sortedBy]
    exact hfind
  | hostFile absolute =>
    rw [hplace] at hof
    obtain ⟨digest, c, hdigest, hc, hfind⟩ := hof hostFileAt (fun input => input.path = absolute)
      (fun entry c hc hq => by
        obtain ⟨_ | _ | _, _⟩ := entry <;> cases hc
        exact congrArg Place.hostFile (of_decide_eq_true hq))
      (fun digest => ⟨_, rfl, decide_eq_true rfl⟩)
    obtain rfl := Option.some.inj hc
    refine ⟨digest, hdigest, ?_⟩
    rw [Record.Has, hhost, KeyedSort.mem_sortedBy]
    exact hfind
  | listing normalized =>
    rw [hplace] at hof
    obtain ⟨digest, c, hdigest, hc, hfind⟩ := hof listingAt (fun l => l.1 = LISTING_PREFIX ++ normalized)
      (fun entry c hc hq => by
        obtain ⟨_ | _ | _, _⟩ := entry <;> cases hc
        exact congrArg Place.listing (List.append_cancel_left (of_decide_eq_true hq)))
      (fun digest => ⟨_, rfl, decide_eq_true rfl⟩)
    obtain rfl := Option.some.inj hc
    refine ⟨digest, hdigest, ?_⟩
    rw [Record.Has, henv, KeyedSort.mem_sortedBy, hbytes]
    exact find?_envInputs (fun hin => hkept (.inr ⟨normalized, hplace, hin⟩)) hfind

/-- At one place a record has one digest. -/
theorem Record.Has.unique (h : capture m a started tree stdout listing = .ok captured) {digestBytes : Text → Text}
    {place : Place} {d d' : Text} (hd : captured.Has digestBytes place d) (hd' : captured.Has digestBytes place d') :
    d = d' ∨ ∃ normalized, place = .listing normalized ∧ digestBytes d = digestBytes d' := by
  obtain ⟨_, entries, -, -, hfiles, hhost, henv⟩ := capture_eq_ok h rfl
  cases place with
  | file normalized =>
    rw [Record.Has, hfiles] at hd hd'
    have := List.inj_on_of_nodup_map (KeyedSort.nodup_sortedBy FileInput.path _) hd hd' rfl
    exact .inl (congrArg FileInput.digest this)
  | hostFile absolute =>
    rw [Record.Has, hhost] at hd hd'
    have := List.inj_on_of_nodup_map (KeyedSort.nodup_sortedBy FileInput.path _) hd hd' rfl
    exact .inl (congrArg FileInput.digest this)
  | listing normalized =>
    rw [Record.Has, henv] at hd hd'
    have := List.inj_on_of_nodup_map (KeyedSort.nodup_sortedBy EnvInput.name _) hd hd' rfl
    exact .inr ⟨normalized, rfl, Option.some.inj (congrArg EnvInput.valueDigest this)⟩

end

/-! ## Two states -/

/-- The same capture in another state of the file system. -/
def inState (w : World) (fs : FileSystem) (fuel : Nat) : World := { w with fs := fs, fuel := fuel }

/-- Each digest that is recorded for a declared path is the digest in another
state as well. -/
def Agree (w w' : World) (stdout : Text) (captured : Record) (declared : Text) : Prop :=
  ∀ path, ReadFor w declared path → ¬ Dropped w stdout path →
    ∃ digest, placeDigest w' path (placeOf w path) = .ok digest ∧ captured.Has w.digestBytes (placeOf w path) digest

/-- The digests are those of the files' contents, and no file passes for a
listing. -/
structure Contents (w : World) (content : Text → Option Text) : Prop where
  digest_eq : ∀ path, w.fs.digest path = (content path).map w.digestBytes
  plain : ∀ path text, content path = some text → ¬ LISTING_DOMAIN <+: text

/-- The texts digested: contents, listings, and again the digests of listings,
which are recorded as the values of variables are. -/
def Hashed (w : World) (content : Text → Option Text) (text : Text) : Prop :=
  (∃ path, content path = some text) ∨
    (∃ root entries, listEntries w.fs root w.fuel root = .ok entries ∧ listingText entries = text) ∨
      ∃ root, directoryListingDigest w root = .ok text

section
variable {w w' : World} {content content' : Text → Option Text} {path d : Text}

/-- What an input's digest is the digest of. -/
theorem text_of_inputDigest (hc : Contents w content) (h : inputDigest w path = .ok d) :
    ∃ text, Hashed w content text ∧ w.digestBytes text = d ∧
      (IsDirectory w.fs path ∧ (∃ entries, listEntries w.fs path w.fuel path = .ok entries ∧ listingText entries = text) ∨
        ¬ IsDirectory w.fs path ∧ content path = some text) := by
  obtain ⟨m, hm, h⟩ := bind_eq_ok.1 h
  have hmeta := ask_eq_ok.1 hm
  split at h
  · next hk =>
    obtain ⟨entries, hentries, hd⟩ := directoryListingDigest_ok.1 h
    exact ⟨_, .inr (.inl ⟨path, entries, hentries, rfl⟩), hd, .inl ⟨⟨m, hmeta, hk⟩, entries, hentries, rfl⟩⟩
  · next hk =>
    have hdigest := ask_eq_ok.1 h
    rw [hc.digest_eq] at hdigest
    obtain ⟨text, htext, hd⟩ := Option.map_eq_some_iff.1 hdigest
    refine ⟨text, .inl ⟨path, htext⟩, hd, .inr ⟨?_, htext⟩⟩
    rintro ⟨m', hm', hdir⟩
    obtain rfl := Option.some.inj (hmeta.symm.trans hm')
    exact hk hdir

variable (hbytes : w'.digestBytes = w.digestBytes)
  (hhash : Set.InjOn w.digestBytes {text | Hashed w content text ∨ Hashed w' content' text})
  (hc : Contents w content) (hc' : Contents w' content')
include hbytes hhash hc hc'

/-- A file whose digest is the same has the same content. -/
theorem content_eq_of_inputDigest (hd : inputDigest w path = .ok d) (hd' : inputDigest w' path = .ok d)
    (hfile : ¬ IsDirectory w.fs path) : content' path = content path := by
  obtain ⟨text, hin, hh, hkind⟩ := text_of_inputDigest hc hd
  obtain ⟨text', hin', hh', hkind'⟩ := text_of_inputDigest hc' hd'
  rw [hbytes] at hh'
  obtain rfl := hhash (.inl hin) (.inr hin') (hh.trans hh'.symm)
  have htext := (hkind.resolve_left fun h => hfile h.1).2
  rcases hkind' with ⟨-, entries, -, rfl⟩ | ⟨-, htext'⟩
  · exact absurd (List.prefix_append _ _) (hc.plain path _ htext)
  · rw [htext, htext']

/-- A directory whose digest is the same has the same listing. -/
theorem listing_eq_of_inputDigest (hd : inputDigest w path = .ok d) (hd' : inputDigest w' path = .ok d)
    (hdir : IsDirectory w.fs path) : ∃ entries entries', listEntries w.fs path w.fuel path = .ok entries ∧
      listEntries w'.fs path w'.fuel path = .ok entries' ∧ listingText entries = listingText entries' := by
  obtain ⟨text, hin, hh, hkind⟩ := text_of_inputDigest hc hd
  obtain ⟨text', hin', hh', hkind'⟩ := text_of_inputDigest hc' hd'
  rw [hbytes] at hh'
  obtain rfl := hhash (.inl hin) (.inr hin') (hh.trans hh'.symm)
  obtain ⟨entries, hentries, hl⟩ := (hkind.resolve_right fun h => h.1 hdir).2
  rcases hkind' with ⟨-, entries', hentries', hl'⟩ | ⟨-, htext'⟩
  · exact ⟨entries, entries', hentries, hentries', hl.trans hl'.symm⟩
  · exact absurd (hl ▸ List.prefix_append _ _) (hc'.plain path _ htext')

omit hc hc' in
/-- Likewise for the listing of a root. -/
theorem listing_eq_of_listingDigest (hd : directoryListingDigest w path = .ok d)
    (hd' : directoryListingDigest w' path = .ok d) : ∃ entries entries',
      listEntries w.fs path w.fuel path = .ok entries ∧
        listEntries w'.fs path w'.fuel path = .ok entries' ∧ listingText entries = listingText entries' := by
  obtain ⟨entries, hentries, hh⟩ := directoryListingDigest_ok.1 hd
  obtain ⟨entries', hentries', hh'⟩ := directoryListingDigest_ok.1 hd'
  rw [hbytes] at hh'
  exact ⟨entries, entries', hentries, hentries', hhash (.inl (.inr (.inl ⟨path, entries, hentries, rfl⟩)))
    (.inr (.inr (.inl ⟨path, entries', hentries', rfl⟩))) (hh.trans hh'.symm)⟩

end

/-- What is declared could be walked. -/
theorem declaredPaths_of_capture {m : Machine} {a : BuildIdentity} {started : Int} {tree : List UInt8} {stdout : Text}
    {listing : Option Text} {captured : Record} {w : World} (h : capture m a started tree stdout listing = .ok captured)
    (hw : m.world a.toIdentity started = w) {declared : Text} (hdeclared : declared ∈ declaredFiles stdout) :
    ∃ paths, declaredPaths w declared = .ok paths := by
  obtain ⟨paths, _, hpaths, -⟩ := capture_eq_ok h hw
  rw [inputPaths, if_neg (List.ne_nil_of_mem hdeclared)] at hpaths
  obtain ⟨own, hown, -⟩ := (mem_foldlM_append hpaths).1 declared hdeclared
  exact ⟨own, hown⟩

/-- What is no directory is recorded as a file is. -/
theorem placeDigest_of_not_directory {w w' : World} {path : Text} (h : ¬ IsDirectory w.fs path) :
    placeDigest w' path (placeOf w path) = inputDigest w' path := by
  have hroot : ¬ isRoot w path = true := fun hroot => h (isDirectory_of_isRoot hroot)
  unfold placeOf
  rw [if_neg hroot]
  split <;> rfl

/-- Of a declared directory, the walk and its first step. -/
theorem walkInputs_of_declaredPaths {w : World} {declared : Text} {paths : List Text}
    (h : declaredPaths w declared = .ok paths) (hdir : IsDirectory w.fs (join w.identity.workspace declared)) :
    ∃ below, walkInputs w.fs w.fuel (join w.identity.workspace declared) = .ok below ∧
      paths = below ++ [join w.identity.workspace declared] := by
  unfold declaredPaths at h
  simp only at h
  split at h
  · cases h
  obtain ⟨below, hbelow, h⟩ := bind_eq_ok.1 h
  obtain ⟨m, hm, h⟩ := bind_eq_ok.1 h
  obtain ⟨m', hm', hk⟩ := hdir
  obtain rfl := Option.some.inj ((ask_eq_ok.1 hm).symm.trans hm')
  rw [if_pos hk] at h
  exact ⟨below, hbelow, (pure_eq_ok.1 h).symm⟩

/-- The file a visited path ends at is no directory. -/
theorem LeadsTo.not_directory (hfs : LawfulTree fs names) {path target : Text} (h : LeadsTo fs path target) :
    ¬ IsDirectory fs target := by
  rintro ⟨m', hm', hk'⟩
  cases h with
  | file hm hk =>
    obtain rfl := Option.some.inj (hm.symm.trans hm')
    cases hk.symm.trans hk'
  | link _ _ ht hf =>
    have hself := hfs.symlinkMetadata_canonicalize _ _ (hfs.canonicalize_idem _ _ ht)
    rw [hself] at hm'
    rw [FileSystem.isFile, hm', Option.any_some, hk'] at hf
    cases hf

/-- **What is recorded for a declared directory determines what the walk visits
below it.** Where no recorded digest differs between two states, the walk
visits the same names with the same kinds in both, and each regular file it
found, under its own path or through a link, has the same content; but for what
gave its place in the record to something else. -/
theorem directoryInputs_complete {m : Machine} {a : BuildIdentity} {started : Int} {w : World} {fs' : FileSystem}
    {fuel' : Nat} {names names' : Text → Option (List Text)} {content content' : Text → Option Text}
    (hw : m.world a.toIdentity started = w) (hfs : LawfulTree w.fs names) (hfs' : LawfulTree fs' names')
    (hc : Contents w content) (hc' : Contents (inState w fs' fuel') content')
    (hhash : Set.InjOn w.digestBytes {text | Hashed w content text ∨ Hashed (inState w fs' fuel') content' text})
    {tree : List UInt8} {stdout : Text} {listing : Option Text} {captured : Record}
    (h : capture m a started tree stdout listing = .ok captured)
    {declared root : Text} (hdeclared : declared ∈ declaredFiles stdout)
    (hdir : IsDirectory w.fs (join w.identity.workspace declared))
    (hskip : skippedDirectory w.fs (join w.identity.workspace declared) = false)
    (hroot : w.fs.canonicalize (join w.identity.workspace declared) = some root)
    (hagree : Agree w (inState w fs' fuel') stdout captured declared) :
    (¬ Dropped w stdout root → SameVisits w.fs fs' root) ∧
      ∀ path target, Visits w.fs root path → LeadsTo w.fs (entryAt root path) target → ¬ Dropped w stdout target →
        content' target = content target := by
  obtain ⟨paths, hpaths⟩ := declaredPaths_of_capture h hw hdeclared
  obtain ⟨below, hbelow, rfl⟩ := walkInputs_of_declaredPaths hpaths hdir
  have habs := hfs.isAbsolute_canonicalize _ _ hroot
  have hbytes : (inState w fs' fuel').digestBytes = w.digestBytes := rfl
  -- one digest in both states
  have hsame : ∀ path, ReadFor w declared path → ¬ Dropped w stdout path →
      ∃ digest, placeDigest w path (placeOf w path) = .ok digest ∧
        placeDigest (inState w fs' fuel') path (placeOf w path) = .ok digest := by
    intro path hread hkept
    obtain ⟨d, hd, hhas⟩ := capture_has h hw hfs hdeclared hread hkept
    obtain ⟨d', hd', hhas'⟩ := hagree path hread hkept
    rcases hhas.unique h hhas' with rfl | ⟨normalized, hplace, heq⟩
    · exact ⟨d, hd, hd'⟩
    · rw [hplace] at hd hd' ⊢
      obtain rfl := hhash (.inl (.inr (.inr ⟨path, hd⟩))) (.inr (.inr (.inr ⟨path, hd'⟩))) heq
      exact ⟨d, hd, hd'⟩
  have hrootDir : IsDirectory w.fs root := by
    obtain ⟨m, hm, hk⟩ := hdir
    have hmeta := w.fs.metadata_eq _ m hm (by rw [hk]; decide)
    exact ⟨m, (hfs.symlinkMetadata_canonicalize _ _ hroot).trans hmeta, hk⟩
  refine ⟨fun hkept => ?_, fun path target hv ht hkept => ?_⟩
  · -- the directory itself, by its listing
    obtain ⟨d, hd, hd'⟩ := hsame root
      ⟨_, hpaths, _, List.mem_append_right _ (List.mem_singleton_self _), hroot⟩ hkept
    have hlisting : ∃ entries entries', listEntries w.fs root w.fuel root = .ok entries ∧
        listEntries fs' root fuel' root = .ok entries' ∧ listingText entries = listingText entries' := by
      cases hplace : placeOf w root with
      | listing normalized =>
        rw [hplace] at hd hd'
        exact listing_eq_of_listingDigest hbytes hhash hd hd'
      | file normalized =>
        rw [hplace] at hd hd'
        exact listing_eq_of_inputDigest hbytes hhash hc hc' hd hd' hrootDir
      | hostFile absolute =>
        rw [hplace] at hd hd'
        exact listing_eq_of_inputDigest hbytes hhash hc hc' hd hd' hrootDir
    obtain ⟨entries, entries', he, he', heq⟩ := hlisting
    exact sameVisits_of_listing hfs hfs' habs he he' heq
  · -- the file, by its content
    obtain ⟨file, hfile, hcanonical⟩ := exists_walked hfs hv hroot hdir hskip hbelow ht
    have hnot := ht.not_directory hfs
    obtain ⟨d, hd, hd'⟩ := hsame target ⟨_, hpaths, file, List.mem_append_left _ hfile, hcanonical⟩ hkept
    rw [placeDigest_of_not_directory hnot] at hd hd'
    exact content_eq_of_inputDigest hbytes hhash hc hc' hd hd' hnot

/-! ## Everything that can be reached -/

/-- The names lead from `dir` through whatever can be read as a directory. -/
inductive Reaches (fs : FileSystem) : Text → List Text → Prop where
  | here {dir : Text} : Reaches fs dir []
  | entry {dir name : Text} {rest children : List Text} (hname : EntryName name) (hc : fs.readDir dir = some children)
      (hin : join dir name ∈ children) (hr : Reaches fs (join dir name) rest) : Reaches fs dir (name :: rest)

/-- The same names, kinds and contents below a directory, links followed. -/
structure SameReachable (fs fs' : FileSystem) (content content' : Text → Option Text) (dir : Text) : Prop where
  reaches : ∀ path, Reaches fs dir path ↔ Reaches fs' dir path
  kind : ∀ path, Reaches fs dir path →
    (fs'.symlinkMetadata (entryAt dir path)).map (·.kind) = (fs.symlinkMetadata (entryAt dir path)).map (·.kind)
  content : ∀ path, Reaches fs dir path → content' (entryAt dir path) = content (entryAt dir path)

/-! ## A directory with build output

`/w/data` holds a file and a directory `target` with another. Where the home
directory is `/h`, its files `x/h/f` and `x$HOME/f` have one normalized path. -/

def builtFiles : List Text :=
  ["/w/data/a.txt", "/w/data/target/x", "/w/data/x/h/f", "/w/data/x$HOME/f"].map String.toList

def builtDirectories : List Text :=
  ["/", "/w", "/w/data", "/w/data/target", "/w/data/x", "/w/data/x/h", "/w/data/x$HOME"].map String.toList

def builtText (output second path : Text) : Text :=
  if path = "/w/data/target/x".toList then output
  else if path = "/w/data/x$HOME/f".toList then second else "a".toList

def builtTree (output second : Text) : FileSystem := .still builtFiles builtDirectories (builtText output second)

def builtContent (output second path : Text) : Option Text :=
  if path ∈ builtFiles then some (builtText output second path) else none

def builtMachine : Machine where
  fs := builtTree "1".toList "1".toList
  var := fun name => if name = "HOME".toList then some "/h".toList else none
  currentDir := some "/w".toList
  digestBytes := id
  actionKey := fun _ _ _ _ => []
  fuel := 4

def builtIdentity : BuildIdentity :=
  identityIn builtMachine.toProcess "/w".toList
    { outDir := "/w/target/debug/deps".toList, source := none, staticKey := [], virtualEnv := [],
      diagnosticWidth := none }

def builtStarted : Int := 1700000000500000000

def builtWorld : World := builtMachine.world builtIdentity.toIdentity builtStarted

def rebuiltWorld (output second : Text) : World := inState builtWorld (builtTree output second) 4

def builtStdout : Text := "cargo:rerun-if-changed=data\n".toList

def builtListing : Text :=
  listingText (["f a.txt", "d target", "d x", "d x/h", "f x/h/f", "d x$HOME", "f x$HOME/f"].map String.toList)

def builtRecord : Record where
  files := [⟨"$WORKSPACE/data".toList, builtListing⟩, ⟨"$WORKSPACE/data/a.txt".toList, "a".toList⟩,
    ⟨"$WORKSPACE/data/x$HOME/f".toList, "a".toList⟩]
  hostFiles := []
  env := [.capture id (pinName WORKSPACE) (some "/w".toList)]

theorem capture_built : capture builtMachine builtIdentity builtStarted [] builtStdout none = .ok builtRecord := by
  decide +kernel

/-- Only `x$HOME/f` is dropped. -/
theorem read_built {path : Text} (hread : ReadFor builtWorld "data".toList path)
    (hkept : ¬ Dropped builtWorld builtStdout path) :
    path ∈ ["/w/data", "/w/data/a.txt", "/w/data/x/h/f"].map String.toList := by
  have hpaths : declaredPaths builtWorld "data".toList =
      .ok (["/w/data/a.txt", "/w/data/x/h/f", "/w/data/x$HOME/f", "/w/data"].map String.toList) := by
    decide +kernel
  have hinputs : inputPaths builtWorld builtStdout =
      .ok (["/w/data/a.txt", "/w/data/x/h/f", "/w/data/x$HOME/f", "/w/data"].map String.toList) := by
    decide +kernel
  obtain ⟨paths, hpaths', p, hp, hr⟩ := hread
  obtain rfl := Except.ok.inj (hpaths.symm.trans hpaths')
  obtain ⟨rfl, -⟩ := eq_of_canonicalize_still hr
  have hcases : ∀ path ∈ ["/w/data/a.txt", "/w/data/x/h/f", "/w/data/x$HOME/f", "/w/data"].map String.toList,
      path ∈ ["/w/data", "/w/data/a.txt", "/w/data/x/h/f"].map String.toList ∨ path = "/w/data/x$HOME/f".toList := by
    decide
  rcases hcases path hp with hin | rfl
  · exact hin
  · exact absurd (.inl ⟨_, "/w/data/x/h/f".toList, hinputs, by decide +kernel, by decide⟩) hkept

/-- What the record holds does not tell the two files apart from others. -/
theorem agree_built {output second : Text}
    (hsame : ∀ path ∈ ["/w/data", "/w/data/a.txt", "/w/data/x/h/f"].map String.toList,
      placeDigest (rebuiltWorld output second) path (placeOf builtWorld path) =
        placeDigest builtWorld path (placeOf builtWorld path)) :
    Agree builtWorld (rebuiltWorld output second) builtStdout builtRecord "data".toList := by
  have hdata : ∀ path ∈ ["/w/data", "/w/data/a.txt", "/w/data/x/h/f"].map String.toList,
      ∃ input ∈ builtRecord.files, placeOf builtWorld path = .file input.path ∧
        placeDigest builtWorld path (placeOf builtWorld path) = .ok input.digest := by
    decide +kernel
  intro path hread hkept
  have hin := read_built hread hkept
  obtain ⟨input, hinput, hplace, hdigest⟩ := hdata path hin
  exact ⟨input.digest, (hsame path hin).trans hdigest, by rw [hplace]; exact hinput⟩

theorem agree_built_output : Agree builtWorld (rebuiltWorld "2".toList "1".toList) builtStdout builtRecord "data".toList :=
  agree_built (by decide +kernel)

theorem agree_built_second : Agree builtWorld (rebuiltWorld "1".toList "2".toList) builtStdout builtRecord "data".toList :=
  agree_built (by decide +kernel)

/-- What the walk skips changes, and no recorded digest tells; nor does it for
a file that another with its normalized path stands for. -/
theorem builtInputs_not_complete :
    (¬ ∀ captured, capture builtMachine builtIdentity builtStarted [] builtStdout none = .ok captured →
      Agree builtWorld (rebuiltWorld "2".toList "1".toList) builtStdout captured "data".toList →
        SameReachable builtWorld.fs (rebuiltWorld "2".toList "1".toList).fs (builtContent "1".toList "1".toList)
          (builtContent "2".toList "1".toList) "/w/data".toList) ∧
    ¬ ∀ captured, capture builtMachine builtIdentity builtStarted [] builtStdout none = .ok captured →
      Agree builtWorld (rebuiltWorld "1".toList "2".toList) builtStdout captured "data".toList →
        SameReachable builtWorld.fs (rebuiltWorld "1".toList "2".toList).fs (builtContent "1".toList "1".toList)
          (builtContent "1".toList "2".toList) "/w/data".toList := by
  have hdata : builtWorld.fs.readDir "/w/data".toList =
      some (["/w/data/a.txt", "/w/data/target", "/w/data/x", "/w/data/x$HOME"].map String.toList) := by
    decide +kernel
  have htarget : builtWorld.fs.readDir (join "/w/data".toList "target".toList) = some ["/w/data/target/x".toList] := by
    decide +kernel
  have hsecond : builtWorld.fs.readDir (join "/w/data".toList "x$HOME".toList) = some ["/w/data/x$HOME/f".toList] := by
    decide +kernel
  constructor
  · intro h
    have hreaches : Reaches builtWorld.fs "/w/data".toList ["target".toList, "x".toList] :=
      .entry (by decide) hdata (by decide) (.entry (by decide) htarget (by decide) .here)
    exact absurd ((h builtRecord capture_built agree_built_output).content _ hreaches) (by decide)
  · intro h
    have hreaches : Reaches builtWorld.fs "/w/data".toList ["x$HOME".toList, "f".toList] :=
      .entry (by decide) hdata (by decide) (.entry (by decide) hsecond (by decide) .here)
    exact absurd ((h builtRecord capture_built agree_built_second).content _ hreaches) (by decide)

theorem contents_built (w : World) {output second : Text} (hw : w.fs = builtTree output second)
    (hd : w.digestBytes = id) (ho : ¬ LISTING_DOMAIN <+: output) (hs : ¬ LISTING_DOMAIN <+: second) :
    Contents w (builtContent output second) where
  digest_eq := by
    intro path
    rw [hw, hd, Option.map_id]
    rfl
  plain := by
    intro path text h
    obtain ⟨-, htext⟩ := Option.ite_none_right_eq_some.1 h
    obtain rfl := Option.some.inj htext
    unfold builtText
    split
    · exact ho
    · split
      · exact hs
      · decide

theorem directoryInputs_complete_built :
    (¬ Dropped builtWorld builtStdout "/w/data".toList →
      SameVisits builtWorld.fs (builtTree "2".toList "1".toList) "/w/data".toList) ∧
      ∀ path target, Visits builtWorld.fs "/w/data".toList path →
        LeadsTo builtWorld.fs (entryAt "/w/data".toList path) target → ¬ Dropped builtWorld builtStdout target →
          builtContent "2".toList "1".toList target = builtContent "1".toList "1".toList target := by
  have hspelled : SpelledOnce (builtFiles ++ builtDirectories) := by decide +kernel
  have hdir : IsDirectory builtWorld.fs (join builtWorld.identity.workspace "data".toList) :=
    ⟨⟨.directory, 0, 0, 0⟩, by decide, rfl⟩
  have hrebuilt : Contents (rebuiltWorld "2".toList "1".toList) (builtContent "2".toList "1".toList) :=
    contents_built _ rfl rfl (by decide) (by decide)
  exact directoryInputs_complete (w := builtWorld) rfl (lawfulTree_still hspelled) (lawfulTree_still hspelled)
    (contents_built _ rfl rfl (by decide) (by decide)) hrebuilt (fun _ _ _ _ h => h) capture_built
    (by decide : "data".toList ∈ declaredFiles builtStdout) hdir (by decide) (by decide) agree_built_output

end Bellows.Cli.BuildScript
