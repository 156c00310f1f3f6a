/-
Files and names, and what of them is on disk. A power failure leaves every name
as one of the things it was since its directory was last synced, and a file
that was written since it was last synced as anything. A directory that is not
itself on disk is gone then, with the names in it.

`Whole` says of some names that what is under them, or may be after a power
failure, is good. A file is put under such a name by a rename, and only once it
is synced; what is done to the other files and names leaves it.
-/
import Mathlib.Data.Set.Function
import Mathlib.Logic.Function.Basic

namespace Durable

structure File (α : Type) where
  content : α
  synced : Bool

/-- Files are numbered; a name leads to one, or to nothing. -/
structure Disk (Path α : Type) where
  files : Nat → File α
  /-- Numbers from here on are unused. -/
  fresh : Nat
  names : Path → Option Nat
  /-- What a name was since its directory was last synced. -/
  earlier : Path → List (Option Nat)

namespace Disk

section Names

variable {Path α : Type}

/-- What the name is, or may turn out to be. -/
def maybe (d : Disk Path α) (p : Path) : List (Option Nat) := d.names p :: d.earlier p

def setFile (d : Disk Path α) (i : Nat) (file : File α) : Disk Path α :=
  { d with files := Function.update d.files i file }

def write (d : Disk Path α) (i : Nat) (content : α) : Disk Path α := d.setFile i ⟨content, false⟩

def sync (d : Disk Path α) (i : Nat) : Disk Path α := d.setFile i { d.files i with synced := true }

/-- After a power failure in which these directories are lost. -/
structure Fails {Dir : Type} (dir : Path → Dir) (lost : Set Dir) (d d' : Disk Path α) : Prop where
  names : ∀ p, dir p ∉ lost → d'.names p ∈ d.maybe p
  gone : ∀ p, dir p ∈ lost → d'.names p = none
  earlier : ∀ p, d'.earlier p = []
  fresh : d'.fresh = d.fresh
  files : ∀ i, (d.files i).synced = true → d'.files i = d.files i

/-- The names in a directory are on disk as they are. -/
def syncDir {Dir : Type} [DecidableEq Dir] (dir : Path → Dir) (d : Disk Path α) (at' : Dir) : Disk Path α :=
  { d with earlier := fun p => if dir p = at' then [] else d.earlier p }

variable [DecidableEq Path]

/-- From now on the name is something else. -/
def setName (d : Disk Path α) (p : Path) (v : Option Nat) : Disk Path α :=
  { d with names := Function.update d.names p v, earlier := Function.update d.earlier p (d.maybe p) }

/-- A new file, under that name. -/
def create (d : Disk Path α) (p : Path) (content : α) : Disk Path α :=
  { (d.setFile d.fresh ⟨content, false⟩).setName p (some d.fresh) with fresh := d.fresh + 1 }

def remove (d : Disk Path α) (p : Path) : Disk Path α := d.setName p none

/-- What is under `src` is under `dst`. -/
def rename (d : Disk Path α) (src dst : Path) : Disk Path α := (d.setName dst (d.names src)).setName src none

end Names

/-! ## What the operations change -/

section Changes

variable {Path Dir α : Type} {d d' : Disk Path α} {p q src dst : Path} {i j : Nat} {v : Option Nat} {content : α}
  {file : File α}

@[simp] theorem names_write : (d.write i content).names = d.names := rfl

@[simp] theorem names_sync : (d.sync i).names = d.names := rfl

@[simp] theorem fresh_write : (d.write i content).fresh = d.fresh := rfl

@[simp] theorem fresh_sync : (d.sync i).fresh = d.fresh := rfl

@[simp] theorem maybe_write : (d.write i content).maybe p = d.maybe p := rfl

@[simp] theorem maybe_sync : (d.sync i).maybe p = d.maybe p := rfl

theorem files_write : (d.write i content).files j = if j = i then ⟨content, false⟩ else d.files j :=
  Function.update_apply ..

theorem files_sync : (d.sync i).files j = if j = i then { d.files i with synced := true } else d.files j :=
  Function.update_apply ..

@[simp] theorem content_sync : ((d.sync i).files j).content = (d.files j).content := by
  rw [files_sync]
  split
  · next h => rw [h]
  · rfl

theorem synced_sync (h : (d.files j).synced = true) : ((d.sync i).files j).synced = true := by
  rw [files_sync]
  split
  · rfl
  · exact h

@[simp] theorem names_syncDir [DecidableEq Dir] {dir : Path → Dir} {at' : Dir} : (d.syncDir dir at').names = d.names := rfl

@[simp] theorem files_syncDir [DecidableEq Dir] {dir : Path → Dir} {at' : Dir} : (d.syncDir dir at').files = d.files := rfl

theorem maybe_syncDir [DecidableEq Dir] {dir : Path → Dir} {at' : Dir} :
    (d.syncDir dir at').maybe p = if dir p = at' then [d.names p] else d.maybe p := by
  unfold maybe syncDir
  dsimp only
  split <;> rfl

theorem names_mem_maybe (d : Disk Path α) (p : Path) : d.names p ∈ d.maybe p := List.mem_cons_self

variable [DecidableEq Path]

theorem names_setName : (d.setName q v).names p = if p = q then v else d.names p := Function.update_apply ..

theorem maybe_setName : (d.setName q v).maybe p = if p = q then v :: d.maybe p else d.maybe p := by
  unfold maybe setName
  simp only [Function.update_apply]
  split
  · next h => rw [h]; rfl
  · rfl

theorem names_create : (d.create q content).names p = if p = q then some d.fresh else d.names p := names_setName

theorem maybe_create : (d.create q content).maybe p = if p = q then some d.fresh :: d.maybe p else d.maybe p :=
  maybe_setName

theorem files_create : (d.create q content).files i = if i = d.fresh then ⟨content, false⟩ else d.files i :=
  Function.update_apply ..

@[simp] theorem fresh_create : (d.create q content).fresh = d.fresh + 1 := rfl

theorem names_remove : (d.remove q).names p = if p = q then none else d.names p := names_setName

theorem maybe_remove : (d.remove q).maybe p = if p = q then none :: d.maybe p else d.maybe p := maybe_setName

@[simp] theorem files_remove : (d.remove q).files = d.files := rfl

@[simp] theorem fresh_remove : (d.remove q).fresh = d.fresh := rfl

theorem names_rename : (d.rename src dst).names p =
    if p = src then none else if p = dst then d.names src else d.names p := by
  rw [rename, names_setName, names_setName]

theorem maybe_rename (hsrc : p ≠ src) : (d.rename src dst).maybe p =
    if p = dst then d.names src :: d.maybe p else d.maybe p := by
  rw [rename, maybe_setName, if_neg hsrc, maybe_setName]

@[simp] theorem files_rename : (d.rename src dst).files = d.files := rfl

@[simp] theorem fresh_rename : (d.rename src dst).fresh = d.fresh := rfl

end Changes

/-! ## What a name may be -/

section Maybe

variable {Path Dir α : Type} {d d' : Disk Path α} {p q src dst : Path} {i : Nat} {v : Option Nat} {content : α}

theorem Fails.mem_maybe {dir : Path → Dir} {lost : Set Dir} (h : Fails dir lost d d') (hi : some i ∈ d'.maybe p) :
    some i ∈ d.maybe p := by
  rw [maybe, h.earlier, List.mem_singleton] at hi
  by_cases hp : dir p ∈ lost
  · rw [h.gone p hp] at hi
    cases hi
  · exact hi ▸ h.names p hp

theorem mem_maybe_syncDir [DecidableEq Dir] {dir : Path → Dir} {at' : Dir} (hi : some i ∈ (d.syncDir dir at').maybe p) :
    some i ∈ d.maybe p := by
  rw [maybe_syncDir] at hi
  split at hi
  · exact List.mem_singleton.1 hi ▸ names_mem_maybe d p
  · exact hi

variable [DecidableEq Path]

theorem mem_maybe_setName (hi : some i ∈ (d.setName q v).maybe p) : some i ∈ d.maybe p ∨ p = q ∧ v = some i := by
  rw [maybe_setName] at hi
  split at hi
  · next hp =>
    rcases List.mem_cons.1 hi with hi | hi
    · exact .inr ⟨hp, hi.symm⟩
    · exact .inl hi
  · exact .inl hi

theorem mem_maybe_create (hi : some i ∈ (d.create q content).maybe p) : some i ∈ d.maybe p ∨ p = q ∧ i = d.fresh :=
  (mem_maybe_setName (d := d.setFile d.fresh ⟨content, false⟩) hi).imp_right fun h => ⟨h.1, (Option.some.inj h.2).symm⟩

theorem mem_maybe_remove (hi : some i ∈ (d.remove q).maybe p) : some i ∈ d.maybe p := by
  rcases mem_maybe_setName hi with hi | hi
  · exact hi
  · cases hi.2

theorem mem_maybe_rename (hi : some i ∈ (d.rename src dst).maybe p) :
    some i ∈ d.maybe p ∨ p = dst ∧ d.names src = some i := by
  rcases mem_maybe_setName hi with hi | hi
  · exact mem_maybe_setName hi
  · cases hi.2

end Maybe

/-! ## What is good stays good -/

section Whole

variable {Path Dir α : Type} {d d' : Disk Path α} {S : Set Path} {Good : Path → α → Prop} {i : Nat} {content : α}

/-- Under the names in `S` there is only what is good, on disk too. -/
def Whole (S : Set Path) (Good : Path → α → Prop) (d : Disk Path α) : Prop :=
  ∀ p ∈ S, ∀ i, some i ∈ d.maybe p → i < d.fresh ∧ (d.files i).synced = true ∧ Good p (d.files i).content

/-- The file is under none of the names in `S`, and may not turn out to be. -/
def Apart (S : Set Path) (d : Disk Path α) (i : Nat) : Prop := ∀ p ∈ S, some i ∉ d.maybe p

/-- The names in `S` are none that they may not have been. -/
theorem Apart.mono (h : d.Apart S i) (hnames : ∀ p ∈ S, some i ∈ d'.maybe p → some i ∈ d.maybe p) : d'.Apart S i :=
  fun p hp hi => h p hp (hnames p hp hi)

/-- What is under a name in `S` is not apart. -/
theorem Apart.ne {p : Path} {j : Nat} (h : d.Apart S i) (hp : p ∈ S) (hj : some j ∈ d.maybe p) : j ≠ i :=
  fun he => h p hp (he ▸ hj)

theorem Whole.of_same (h : d.Whole S Good) (hnames : ∀ p ∈ S, ∀ i, some i ∈ d'.maybe p → some i ∈ d.maybe p)
    (hfresh : d.fresh ≤ d'.fresh)
    (hfiles : ∀ i, (d.files i).synced = true → ¬ d.Apart S i → d'.files i = d.files i) : d'.Whole S Good := by
  intro p hp i hi
  obtain ⟨hlt, hsynced, hgood⟩ := h p hp i (hnames p hp i hi)
  have hsame := hfiles i hsynced fun hapart => hapart p hp (hnames p hp i hi)
  rw [hsame]
  exact ⟨hlt.trans_le hfresh, hsynced, hgood⟩

theorem Whole.apart_fresh (h : d.Whole S Good) (hi : d.fresh ≤ i) : d.Apart S i := by
  intro p hp hmem
  have hlt := (h p hp i hmem).1
  omega

/-- Only files that are apart are written to. -/
theorem Whole.write (h : d.Whole S Good) (hapart : d.Apart S i) : (d.write i content).Whole S Good := by
  refine h.of_same (fun _ _ _ hi => hi) le_rfl fun j _ hnot => ?_
  have hne : j ≠ i := fun he => hnot (he ▸ hapart)
  exact Function.update_of_ne hne _ _

theorem Whole.sync (h : d.Whole S Good) : (d.sync i).Whole S Good := by
  refine h.of_same (fun _ _ _ hi => hi) le_rfl fun j hsynced _ => ?_
  by_cases he : j = i
  · subst he
    simp only [Disk.sync, setFile, Function.update_self]
    exact congrArg (File.mk _) hsynced.symm
  · exact Function.update_of_ne he _ _

theorem Whole.syncDir [DecidableEq Dir] (h : d.Whole S Good) (dir : Path → Dir) (at' : Dir) :
    (d.syncDir dir at').Whole S Good :=
  h.of_same (fun _ _ _ hi => mem_maybe_syncDir hi) le_rfl fun _ _ _ => rfl

/-- And so it is after a power failure. -/
theorem Whole.fails {dir : Path → Dir} {lost : Set Dir} (h : d.Whole S Good) (hf : Fails dir lost d d') :
    d'.Whole S Good :=
  h.of_same (fun _ _ _ hi => hf.mem_maybe hi) hf.fresh.ge fun i hsynced _ => hf.files i hsynced

variable [DecidableEq Path] {q src dst : Path}

theorem Whole.create (h : d.Whole S Good) (hq : q ∉ S) : (d.create q content).Whole S Good := by
  refine h.of_same (fun p hp i hi => ?_) (Nat.le_succ _) fun i _ hnot => ?_
  · exact (mem_maybe_create hi).resolve_right fun hq' => hq (hq'.1 ▸ hp)
  · have hne : i ≠ d.fresh := fun he => hnot (h.apart_fresh he.ge)
    exact Function.update_of_ne hne _ _

theorem Whole.remove (h : d.Whole S Good) : (d.remove q).Whole S Good :=
  h.of_same (fun _ _ _ hi => mem_maybe_remove hi) le_rfl fun _ _ _ => rfl

/-- **A file is put under a name once it is good and synced.** -/
theorem Whole.rename (h : d.Whole S Good) (hready : dst ∈ S → ∀ i, d.names src = some i →
    i < d.fresh ∧ (d.files i).synced = true ∧ Good dst (d.files i).content) : (d.rename src dst).Whole S Good := by
  intro p hp i hi
  rcases mem_maybe_rename hi with hbefore | ⟨rfl, hsrc⟩
  · exact h p hp i hbefore
  · exact hready hp i hsrc

end Whole

end Disk

end Durable
