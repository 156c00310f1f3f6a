/-
What keeps the memo right.

A digest of bytes that were there two seconds after the file's last change fits
whatever file has its key. An earlier one fits as long as no write in the same
tick brings other bytes under that key: if none does, every digest that `file`
returns is that of the file.
-/
import Mathlib.Order.Lattice
import Bellows.Cli.Digests

namespace Bellows.Cli.Digests

open Bellows.Core Transition

namespace Setup

/-! ## Keys -/

variable {u : Setup}

theorem path_of_identity {path path' : Text} {metadata metadata' : Metadata} (hclear : '\x00' ∉ path)
    (hclear' : '\x00' ∉ path') (hhashed : u.Hashed (identityBytes path metadata))
    (hhashed' : u.Hashed (identityBytes path' metadata'))
    (h : u.identity path metadata = u.identity path' metadata') : path = path' := by
  have hfields := utf8_injective (u.digest_inj _ _ hhashed hhashed' h)
  simp only [identityFields, List.append_assoc, List.append_cancel_left_eq] at hfields
  exact (Text.append_cons_inj_first hclear hclear' hfields).1

theorem not_whitespace_of_valid {key : Text} (h : validContentKey key = true) : ∀ c ∈ key, isWhitespace c = false := by
  intro c hc
  simp only [validContentKey, Bool.and_eq_true, List.all_eq_true, Bool.or_eq_true, decide_eq_true_eq] at h
  have hrange : 48 ≤ c.toNat ∧ c.toNat ≤ 57 ∨ 97 ≤ c.toNat ∧ c.toNat ≤ 102 := by
    rcases h.2 c hc with hd | ⟨hlow, hhigh⟩
    · exact .inl (Char.isDigit_iff_toNat.1 hd)
    · exact .inr ⟨hlow, hhigh⟩
  simp only [isWhitespace, List.mem_cons, List.not_mem_nil, or_false, decide_eq_false_iff_not]
  omega

theorem trim_of_clear {text : Text} (h : ∀ c ∈ text, isWhitespace c = false) : trim text = text := by
  rw [trim, trimStart_of_head fun c hc => h c (List.mem_of_mem_head? hc)]
  exact trimEnd_of_getLast fun c hc => h c (List.mem_of_getLast? hc)

/-- What is kept is read as it was written. -/
theorem trim_digest (u : Setup) (bytes : List UInt8) : trim (u.digestBytes bytes) = u.digestBytes bytes :=
  trim_of_clear (not_whitespace_of_valid (u.digest_valid bytes))

/-! ## What holds in every run -/

/-- The call of `file` for `path` that found `version` is told of a file with
this, if nothing was written since. -/
def Since (s : State) (path : Text) (version : Nat) (P : Option File → Prop) : Prop :=
  version ≤ s.version path ∧ (s.version path = version → P (s.files path))

/-- The bytes were the file's, and are unless it was written since. -/
def Seen (s : State) (path : Text) (kept : Kept) : Prop :=
  kept.obtained ≤ s.now ∧ ∀ f, s.files path = some f → s.writtenAt path < kept.obtained → f.content = kept.bytes

/-- Whichever file has the key has the bytes. -/
def Fits (u : Setup) (s : State) (key : Text) (kept : Kept) : Prop :=
  kept.obtained ≤ s.now ∧
    ∀ path f, s.files path = some f → u.identity path f.metadata = key → f.content = kept.bytes

def HasBytes (kept : Kept) (file : Option File) : Prop := ∃ f, file = some f ∧ f.content = kept.bytes

def Named (u : Setup) (path : Text) (metadata : Metadata) : Prop :=
  '\x00' ∉ path ∧ u.Hashed (identityBytes path metadata)

def PhaseOk (u : Setup) (s : State) : Phase → Prop
  | .idle => True
  | .small path version => version ≤ s.version path
  | .stated path metadata version =>
    Named u path metadata ∧ Since s path version fun file => ∃ f, file = some f ∧ f.metadata = metadata
  | .missed path metadata version => Named u path metadata ∧ version ≤ s.version path
  | .hashed path metadata version kept | .timed path metadata version kept _ =>
    Named u path metadata ∧ Seen s path kept ∧ Since s path version (HasBytes kept)
  | .keyed _ kept call => ∀ path version, call = some (path, version) → Since s path version (HasBytes kept)
  | .returned path digest version => Since s path version fun file => ∃ f, file = some f ∧ digest = u.digestBytes f.content
  | .failed path version => Since s path version (· = none)
  | .holding path kept => Seen s path kept

structure Inv (u : Setup) (s : State) : Prop where
  dated : ∀ path, s.writtenAt path ≤ s.now
  named : ∀ path f, s.files path = some f → Named u path f.metadata
  in_tick : ∀ path f, s.files path = some f → s.writtenAt path < statusChanged f.metadata + u.tick
  keeps : ∀ key kept, Keeps s key kept → Fits u s key kept
  phases : ∀ p, PhaseOk u s (s.phases p)

theorem statusChanged_le (metadata : Metadata) : statusChanged metadata ≤ changed metadata := le_max_right _ _

variable {s t : State} {path : Text} {version : Nat} {P : Option File → Prop}

theorem Since.of_eq (hfiles : t.files = s.files) (hversion : t.version = s.version) (h : Since s path version P) :
    Since t path version P := by
  unfold Since at h ⊢
  rwa [hfiles, hversion]

theorem Since.replaced (h : Since s path version P) (path' : Text) (file : Option File) :
    Since (s.replaced path' file) path version P := by
  obtain ⟨hle, hP⟩ := h
  by_cases hpath : path = path'
  · subst hpath
    have hnext : (s.replaced path file).version path = s.version path + 1 := by simp [State.replaced]
    exact ⟨by omega, fun h => by omega⟩
  · simpa [Since, State.replaced, hpath] using ⟨hle, hP⟩

theorem Since.now (hP : P (s.files path)) : Since s path (s.version path) P := ⟨Nat.le_refl _, fun _ => hP⟩

theorem Since.of_le (h : version ≤ s.version path) (hP : P (s.files path)) : Since s path version P := ⟨h, fun _ => hP⟩

/-- What was seen before stays so over a write. -/
theorem Seen.replaced {kept : Kept} (h : Seen s path kept) (path' : Text) (file : Option File) :
    Seen (s.replaced path' file) path kept := by
  obtain ⟨hle, hseen⟩ := h
  by_cases hpath : path = path'
  · subst hpath
    refine ⟨hle, fun f _ hlt => ?_⟩
    have hnow : (s.replaced path file).writtenAt path = s.now := by simp [State.replaced]
    omega
  · refine ⟨hle, fun f hf hlt => hseen f ?_ ?_⟩
    · simpa [State.replaced, hpath] using hf
    · simpa [State.replaced, hpath] using hlt

theorem PhaseOk.replaced {phase : Phase} (h : PhaseOk u s phase) (path : Text) (file : Option File) :
    PhaseOk u (s.replaced path file) phase := by
  have hle : ∀ path', s.version path' ≤ (s.replaced path file).version path' := by
    intro path'
    by_cases hpath : path' = path <;> simp [State.replaced, hpath]
  cases phase with
  | idle => trivial
  | small path' version => exact h.trans (hle path')
  | stated path' metadata version => exact ⟨h.1, h.2.replaced path file⟩
  | missed path' metadata version => exact ⟨h.1, h.2.trans (hle path')⟩
  | hashed path' metadata version kept => exact ⟨h.1, h.2.1.replaced path file, h.2.2.replaced path file⟩
  | timed path' metadata version kept settled => exact ⟨h.1, h.2.1.replaced path file, h.2.2.replaced path file⟩
  | keyed key kept call => exact fun path' version hcall => (h path' version hcall).replaced path file
  | returned path' digest version =>
    rw [PhaseOk] at h ⊢
    exact h.replaced path file
  | failed path' version =>
    rw [PhaseOk] at h ⊢
    exact h.replaced path file
  | holding path' kept => exact Seen.replaced h path file

theorem PhaseOk.wait {phase : Phase} (h : PhaseOk u s phase) (nanoseconds : Nat) :
    PhaseOk u { s with now := s.now + nanoseconds } phase := by
  have hseen : ∀ {path kept}, Seen s path kept → Seen { s with now := s.now + nanoseconds } path kept := by
    intro path kept hs
    exact ⟨by have := hs.1; simp only; omega, hs.2⟩
  cases phase with
  | hashed path metadata version kept => exact ⟨h.1, hseen h.2.1, h.2.2⟩
  | timed path metadata version kept settled => exact ⟨h.1, hseen h.2.1, h.2.2⟩
  | holding path kept => exact hseen h
  | _ => exact h

theorem Inv.start (u : Setup) (now : Int) : Inv u (.start now) where
  dated _ := Int.le_refl _
  named _ _ h := by cases h
  in_tick _ _ h := by cases h
  keeps key kept h := by
    obtain h | ⟨p, call, h⟩ := h
    · cases h
    · cases h
  phases _ := trivial

theorem Inv.wait (h : Inv u s) (nanoseconds : Nat) : Inv u { s with now := s.now + nanoseconds } where
  dated path := by
    have := h.dated path
    simp only
    omega
  named := h.named
  in_tick := h.in_tick
  keeps key kept hkeeps := by
    obtain ⟨hle, hfits⟩ := h.keeps key kept hkeeps
    exact ⟨by simp only; omega, hfits⟩
  phases p := (h.phases p).wait nanoseconds

theorem Inv.setPhase (h : Inv u s) {p : Nat} {phase : Phase} (hphase : PhaseOk u s phase)
    (hkeyed : ∀ key kept call, phase = .keyed key kept call → Fits u s key kept) : Inv u (s.setPhase p phase) where
  dated := h.dated
  named := h.named
  in_tick := h.in_tick
  keeps key kept hkeeps := by
    rcases hkeeps with hmemo | ⟨q, call, hq⟩
    · exact h.keeps key kept (.inl hmemo)
    · by_cases hpq : q = p
      · subst hpq
        exact hkeyed key kept call (by simpa [State.setPhase] using hq)
      · exact h.keeps key kept (.inr ⟨q, call, by simpa [State.setPhase, hpq] using hq⟩)
  phases q := by
    by_cases hpq : q = p
    · have hat : (s.setPhase p phase).phases q = phase := by simp [State.setPhase, hpq]
      rw [hat]
      exact hphase
    · have hat : (s.setPhase p phase).phases q = s.phases q := by simp [State.setPhase, hpq]
      rw [hat]
      exact h.phases q

/-- A phase in which nothing is about to be kept. -/
theorem Inv.setPhase_of_ne (h : Inv u s) {p : Nat} {phase : Phase} (hphase : PhaseOk u s phase)
    (hkeyed : ∀ key kept call, phase ≠ .keyed key kept call) : Inv u (s.setPhase p phase) :=
  h.setPhase hphase fun key kept call he => absurd he (hkeyed key kept call)

theorem Inv.setIdle (h : Inv u s) (p : Nat) : Inv u (s.setPhase p .idle) := by
  have hok : PhaseOk u s .idle := trivial
  exact h.setPhase_of_ne hok (by simp)

theorem Inv.forget (h : Inv u s) (key : Text) : Inv u { s with memo := Function.update s.memo key none } where
  dated := h.dated
  named := h.named
  in_tick := h.in_tick
  keeps key' kept hkeeps := by
    rcases hkeeps with hmemo | hq
    · by_cases hkey : key' = key
      · simp [hkey] at hmemo
      · exact h.keeps key' kept (.inl (by simpa [hkey] using hmemo))
    · exact h.keeps key' kept (.inr hq)
  phases := h.phases

/-- What was about to be kept is kept. -/
theorem Inv.memoize (h : Inv u s) {key : Text} {kept : Kept} (hkeeps : Keeps s key kept) :
    Inv u { s with memo := Function.update s.memo key (some kept) } where
  dated := h.dated
  named := h.named
  in_tick := h.in_tick
  keeps key' kept' hkeeps' := by
    rcases hkeeps' with hmemo | hq
    · by_cases hkey : key' = key
      · subst hkey
        obtain rfl : kept = kept' := by simpa using hmemo
        exact h.keeps _ _ hkeeps
      · exact h.keeps key' kept' (.inl (by simpa [hkey] using hmemo))
    · exact h.keeps key' kept' (.inr hq)
  phases := h.phases

/-- A write keeps the invariant if its file has the bytes of each digest kept
under its identity. -/
theorem Inv.replaced (h : Inv u s) (path : Text) {file : Option File}
    (hfile : ∀ f, file = some f → u.Admits s path f.content f.metadata)
    (hfits : ∀ f, file = some f → ∀ kept, Keeps s (u.identity path f.metadata) kept → f.content = kept.bytes) :
    Inv u (s.replaced path file) where
  dated path' := by
    by_cases hpath : path' = path
    · simp [State.replaced, hpath]
    · simpa [State.replaced, hpath] using h.dated path'
  named path' f hf := by
    by_cases hpath : path' = path
    · subst hpath
      have hadmits := hfile f (by simpa [State.replaced] using hf)
      exact ⟨hadmits.path_clear, hadmits.hashed⟩
    · exact h.named path' f (by simpa [State.replaced, hpath] using hf)
  in_tick path' f hf := by
    by_cases hpath : path' = path
    · subst hpath
      have hadmits := hfile f (by simpa [State.replaced] using hf)
      simpa [State.replaced] using hadmits.in_tick
    · have hlt := h.in_tick path' f (by simpa [State.replaced, hpath] using hf)
      simpa [State.replaced, hpath] using hlt
  keeps key kept hkeeps := by
    obtain ⟨hle, hold⟩ := h.keeps key kept hkeeps
    refine ⟨hle, fun path' f hf hkey => ?_⟩
    by_cases hpath : path' = path
    · subst hpath
      exact hfits f (by simpa [State.replaced] using hf) kept (hkey ▸ hkeeps)
    · exact hold path' f (by simpa [State.replaced, hpath] using hf) hkey
  phases p := (h.phases p).replaced path file

/-- Nothing kept for longer than two seconds has the identity that a write
gives now. -/
theorem early_of_admits (h : Inv u s) {content : List UInt8} {metadata : Metadata} (hadmits : u.Admits s path content metadata)
    {key : Text} {kept : Kept} (hkeeps : Keeps s key kept) : Early kept metadata := by
  have hobtained := (h.keeps key kept hkeeps).1
  have htick := hadmits.in_tick
  have hlt := u.tick_lt
  have hchanged := statusChanged_le metadata
  unfold Early
  omega

/-- What was there late is there still. -/
theorem content_of_late (h : Inv u s) {kept : Kept} {f : File} (hseen : Seen s path kept) (hf : s.files path = some f)
    (hlate : ¬ Early kept f.metadata) : f.content = kept.bytes := by
  have htick := h.in_tick path f hf
  have hlt := u.tick_lt
  have hchanged := statusChanged_le f.metadata
  unfold Early at hlate
  exact hseen.2 f hf (by omega)

/-- What is about to be kept fits, if its bytes are there still. -/
theorem fits_identity (h : Inv u s) {kept : Kept} {metadata : Metadata} (hnamed : Named u path metadata) (hseen : Seen s path kept)
    (hthere : ∀ f, s.files path = some f → u.identity path f.metadata = u.identity path metadata → Early kept f.metadata →
      f.content = kept.bytes) : Fits u s (u.identity path metadata) kept := by
  refine ⟨hseen.1, fun path' f hf hkey => ?_⟩
  have hnamed' := h.named path' f hf
  obtain rfl := path_of_identity hnamed'.1 hnamed.1 hnamed'.2 hnamed.2 hkey
  by_cases hearly : Early kept f.metadata
  · exact hthere f hf hkey hearly
  · exact content_of_late h hseen hf hearly

/-! ## Each step -/

/-- What is read from the memo is the digest of the file that had the key. -/
theorem Inv.readMemo (h : Inv u s) {metadata : Metadata} {kept : Kept} (hok : PhaseOk u s (.stated path metadata version))
    (hmemo : s.memo (u.identity path metadata) = some kept) :
    PhaseOk u s (.returned path (trim (u.digestBytes kept.bytes)) version) := by
  obtain ⟨-, hle, hfile⟩ := hok
  refine ⟨hle, fun hversion => ?_⟩
  obtain ⟨f, hf, hmetadata⟩ := hfile hversion
  have hbytes : f.content = kept.bytes := (h.keeps _ _ (.inl hmemo)).2 path f hf (by rw [hmetadata])
  exact ⟨f, hf, by rw [trim_digest, hbytes]⟩

theorem returned_of_hasBytes {kept : Kept} (h : Since s path version (HasBytes kept)) :
    PhaseOk u s (.returned path (u.digestBytes kept.bytes) version) := by
  refine ⟨h.1, fun hversion => ?_⟩
  obtain ⟨f, hf, hbytes⟩ := h.2 hversion
  exact ⟨f, hf, by rw [hbytes]⟩

theorem phaseOk_failed (h : version ≤ s.version path) (hf : s.files path = none) : PhaseOk u s (.failed path version) :=
  ⟨h, fun _ => hf⟩

theorem phaseOk_digestFile (h : version ≤ s.version path) : PhaseOk u s (u.digestFile s path version) := by
  unfold digestFile
  split
  · next f hf => exact ⟨h, fun _ => ⟨f, hf, rfl⟩⟩
  · next hf => exact phaseOk_failed h hf

theorem digestFile_ne_keyed (s : State) (path : Text) (version : Nat) (key : Text) (kept : Kept) (call : Option (Text × Nat)) :
    u.digestFile s path version ≠ .keyed key kept call := by
  unfold digestFile
  cases s.files path <;> simp

/-- What is read now. -/
theorem seen_now {f : File} (hf : s.files path = some f) : Seen s path ⟨f.content, s.now⟩ := by
  refine ⟨Int.le_refl _, fun f' hf' _ => ?_⟩
  rw [hf] at hf'
  rw [Option.some.inj hf']

/-- What is written now. -/
theorem seen_replaced (s : State) (path : Text) (file : File) (content : List UInt8) :
    Seen (s.replaced path (some file)) path ⟨content, s.now⟩ := by
  refine ⟨Int.le_refl _, fun f _ hlt => ?_⟩
  have hnow : (s.replaced path (some file)).writtenAt path = s.now := by simp [State.replaced]
  simp only [hnow, Int.lt_irrefl] at hlt

theorem Inv.write (h : Inv u s) {content : List UInt8} {metadata : Metadata} (hadmits : u.Admits s path content metadata)
    (hunmixed : ∀ kept, Keeps s (u.identity path metadata) kept → Early kept metadata → content = kept.bytes) :
    Inv u (s.replaced path (some ⟨content, metadata⟩)) := by
  apply h.replaced path
  · intro f hf
    obtain rfl := Option.some.inj hf
    exact hadmits
  · intro f hf kept hkeeps
    obtain rfl := Option.some.inj hf
    exact hunmixed kept hkeeps (early_of_admits h hadmits hkeeps)

theorem Inv.file (h : Inv u s) {p : Nat} (hs : u.step s (.file p path) = some t) : Inv u t := by
  simp only [step] at hs
  split at hs
  · split at hs
    · next hf =>
      obtain rfl := Option.some.inj hs
      exact h.setPhase_of_ne (phaseOk_failed (Nat.le_refl _) hf) (by simp)
    · next f hf =>
      split at hs
      · obtain rfl := Option.some.inj hs
        exact h.setPhase_of_ne (Nat.le_refl (s.version path)) (by simp)
      · obtain rfl := Option.some.inj hs
        have hok : PhaseOk u s (.stated path f.metadata (s.version path)) := ⟨h.named path f hf, Since.now ⟨f, hf, rfl⟩⟩
        exact h.setPhase_of_ne hok (by simp)
  · cases hs

theorem Inv.readMemo_step (h : Inv u s) {p : Nat} {readable : Bool} (hs : u.step s (.readMemo p readable) = some t) :
    Inv u t := by
  simp only [step] at hs
  split at hs
  · next path metadata version hp =>
    have hok : PhaseOk u s (.stated path metadata version) := hp ▸ h.phases p
    have hmissed : Inv u (s.setPhase p (.missed path metadata version)) :=
      h.setPhase_of_ne ⟨hok.1, hok.2.1⟩ (by simp)
    split at hs
    · next kept hmemo =>
      split at hs
      · obtain rfl := Option.some.inj hs
        exact h.setPhase_of_ne (h.readMemo hok hmemo) (by simp)
      · obtain rfl := Option.some.inj hs
        exact hmissed
    · obtain rfl := Option.some.inj hs
      exact hmissed
  · cases hs

theorem Inv.hash (h : Inv u s) {p : Nat} (hs : u.step s (.hash p) = some t) : Inv u t := by
  simp only [step] at hs
  split at hs
  · next path version hp =>
    obtain rfl := Option.some.inj hs
    have hle : PhaseOk u s (.small path version) := hp ▸ h.phases p
    exact h.setPhase_of_ne (phaseOk_digestFile hle) (digestFile_ne_keyed s path version)
  · next path metadata version hp =>
    have hok : PhaseOk u s (.missed path metadata version) := hp ▸ h.phases p
    split at hs
    · next f hf =>
      obtain rfl := Option.some.inj hs
      have hhashed : PhaseOk u s (.hashed path metadata version ⟨f.content, s.now⟩) :=
        ⟨hok.1, seen_now hf, Since.of_le hok.2 ⟨f, hf, rfl⟩⟩
      exact h.setPhase_of_ne hhashed (by simp)
    · next hf =>
      obtain rfl := Option.some.inj hs
      exact h.setPhase_of_ne (phaseOk_failed hok.2 hf) (by simp)
  · cases hs

theorem Inv.clock (h : Inv u s) {p : Nat} (hs : u.step s (.clock p) = some t) : Inv u t := by
  simp only [step] at hs
  split at hs
  · next path metadata version kept hp =>
    obtain rfl := Option.some.inj hs
    have hok : PhaseOk u s (.hashed path metadata version kept) := hp ▸ h.phases p
    have htimed : PhaseOk u s (.timed path metadata version kept (RACY < s.now - changed metadata)) := hok
    exact h.setPhase_of_ne htimed (by simp)
  · cases hs

theorem Inv.restat (h : Inv u s) {p : Nat} (hs : u.step s (.restat p) = some t) (hunmixed : u.Unmixed s (.restat p)) :
    Inv u t := by
  simp only [step] at hs
  split at hs
  · next path metadata version kept settled hp =>
    have hok : PhaseOk u s (.timed path metadata version kept settled) := hp ▸ h.phases p
    obtain ⟨hnamed, hseen, hsince⟩ := hok
    split at hs
    · next hboth =>
      obtain rfl := Option.some.inj hs
      obtain ⟨rfl, -⟩ := Bool.and_eq_true_iff.1 hboth
      have hfits : Fits u s (u.identity path metadata) kept :=
        fits_identity h hnamed hseen fun f hf hkey => hunmixed path metadata version kept f hp hf hkey
      refine h.setPhase (fun path' version' hcall => ?_) fun key kept' call he => ?_
      · cases hcall
        exact hsince
      · cases he
        exact hfits
    · obtain rfl := Option.some.inj hs
      exact h.setPhase_of_ne (returned_of_hasBytes hsince) (by simp)
  · cases hs

theorem Inv.memoize_step (h : Inv u s) {p : Nat} {stored : Bool} (hs : u.step s (.memoize p stored) = some t) : Inv u t := by
  simp only [step] at hs
  split at hs
  · next key kept call hp =>
    have hok : PhaseOk u s (.keyed key kept call) := hp ▸ h.phases p
    have hmemo : Inv u { s with memo := if stored = true then Function.update s.memo key (some kept) else s.memo } := by
      cases stored with
      | true => exact h.memoize (.inr ⟨p, call, hp⟩)
      | false => exact h
    split at hs
    · next path version =>
      obtain rfl := Option.some.inj hs
      have hsince : Since s path version (HasBytes kept) := hok path version rfl
      have hreturned := returned_of_hasBytes (u := u) (hsince.of_eq (t :=
        { s with memo := if stored = true then Function.update s.memo key (some kept) else s.memo }) rfl rfl)
      exact hmemo.setPhase_of_ne hreturned (by simp)
    · obtain rfl := Option.some.inj hs
      exact hmemo.setIdle p
  · cases hs

theorem Inv.take (h : Inv u s) {p : Nat} (hs : u.step s (.take p path) = some t) : Inv u t := by
  simp only [step] at hs
  split at hs
  · next f _ hf =>
    obtain rfl := Option.some.inj hs
    exact h.setPhase_of_ne (seen_now hf) (by simp)
  · cases hs

theorem Inv.put (h : Inv u s) {p : Nat} {content : List UInt8} {metadata : Metadata}
    (hs : u.step s (.put p path content metadata) = some t) (hadmits : u.Admits s path content metadata)
    (hunmixed : ∀ kept, Keeps s (u.identity path metadata) kept → Early kept metadata → content = kept.bytes) :
    Inv u t := by
  simp only [step] at hs
  split at hs
  · obtain rfl := Option.some.inj hs
    exact (h.write hadmits hunmixed).setPhase_of_ne (seen_replaced s path _ content) (by simp)
  · cases hs

theorem Inv.remember (h : Inv u s) {p : Nat} (hs : u.step s (.remember p) = some t) (hunmixed : u.Unmixed s (.remember p)) :
    Inv u t := by
  simp only [step] at hs
  split at hs
  · next path kept hp =>
    have hseen : PhaseOk u s (.holding path kept) := hp ▸ h.phases p
    split at hs
    · obtain rfl := Option.some.inj hs
      exact h.setIdle p
    · next f hf =>
      split at hs
      · obtain rfl := Option.some.inj hs
        exact h.setIdle p
      · next hlarge =>
        obtain rfl := Option.some.inj hs
        have hroot : u.root = true ∧ SMALL ≤ f.metadata.len := by
          simp only [not_or, Bool.not_eq_false, Nat.not_lt] at hlarge
          exact ⟨hlarge.1, hlarge.2.1⟩
        have hfits : Fits u s (u.identity path f.metadata) kept := by
          refine fits_identity h (h.named path f hf) hseen fun f' hf' _ => ?_
          exact hunmixed path kept f' hp hf' hroot.1 (by rw [hf] at hf'; cases hf'; exact hroot.2)
        refine h.setPhase (fun path' version' hcall => by cases hcall) fun key kept' call he => ?_
        cases he
        exact hfits
  · cases hs

/-- Every step that meets the condition keeps the invariant. -/
theorem Inv.step {a : Action} (h : Inv u s) (hs : u.Steps s a t) (hunmixed : u.Unmixed s a) : Inv u t := by
  obtain ⟨hs, hadmits⟩ := hs
  cases a with
  | wait nanoseconds =>
    obtain rfl := Option.some.inj hs
    exact h.wait nanoseconds
  | write path content metadata =>
    obtain rfl := Option.some.inj hs
    exact h.write hadmits hunmixed
  | remove path =>
    obtain rfl := Option.some.inj hs
    exact h.replaced path (by simp) (by simp)
  | forget key =>
    obtain rfl := Option.some.inj hs
    exact h.forget key
  | file p path => exact h.file hs
  | readMemo p readable => exact h.readMemo_step hs
  | hash p => exact h.hash hs
  | clock p => exact h.clock hs
  | restat p => exact h.restat hs hunmixed
  | memoize p stored => exact h.memoize_step hs
  | take p path => exact h.take hs
  | put p path content metadata => exact h.put hs hadmits hunmixed
  | remember p => exact h.remember hs hunmixed
  | stop p =>
    obtain rfl := Option.some.inj hs
    exact h.setIdle p

theorem Inv.correct (h : Inv u s) : u.Correct s := by
  intro p path version hversion
  constructor
  · intro digest hp
    have hok : PhaseOk u s (.returned path digest version) := hp ▸ h.phases p
    exact hok.2 hversion
  · intro hp
    have hok : PhaseOk u s (.failed path version) := hp ▸ h.phases p
    exact hok.2 hversion

theorem left_digestFile (s : State) (path : Text) (version : Nat) :
    left (u.digestFile s path version) = 0 ∧ ended (u.digestFile s path version) = true := by
  unfold digestFile
  split <;> exact ⟨rfl, rfl⟩

theorem setPhase_self (s : State) (p : Nat) (phase : Phase) : (s.setPhase p phase).phases p = phase := by
  simp [State.setPhase]

/-- A step of the process's own that leads to a phase with less left. -/
theorem goesOn_of {p : Nat} {a : Action} {phase : Phase} (hs : u.Steps s a (t.setPhase p phase))
    (hlt : left phase < left (s.phases p)) (hended : left phase = 0 → ended phase = true) :
    ∃ a t, u.Steps s a t ∧ left (t.phases p) < left (s.phases p) ∧ (left (t.phases p) = 0 → ended (t.phases p) = true) := by
  refine ⟨a, _, hs, ?_⟩
  rw [setPhase_self]
  exact ⟨hlt, hended⟩

theorem goesOn (u : Setup) (s : State) : u.GoesOn s := by
  intro p hleft
  cases hp : s.phases p with
  | small path version =>
    obtain ⟨hzero, hended⟩ := left_digestFile (u := u) s path version
    have hs : u.Steps s (.hash p) (s.setPhase p (u.digestFile s path version)) := ⟨by simp [step, hp], trivial⟩
    exact hp ▸ goesOn_of hs (by rw [hzero]; exact hleft) fun _ => hended
  | stated path metadata version =>
    have hs : u.Steps s (.readMemo p false) (s.setPhase p (.missed path metadata version)) := by
      refine ⟨?_, trivial⟩
      simp only [step, hp]
      split <;> simp
    exact hp ▸ goesOn_of hs (by simp [hp, left]) fun h => by cases h
  | missed path metadata version =>
    cases hf : s.files path with
    | some f =>
      have hs : u.Steps s (.hash p) (s.setPhase p (.hashed path metadata version ⟨f.content, s.now⟩)) :=
        ⟨by simp [step, hp, hf], trivial⟩
      exact hp ▸ goesOn_of hs (by simp [hp, left]) fun h => by cases h
    | none =>
      have hs : u.Steps s (.hash p) (s.setPhase p (.failed path version)) := ⟨by simp [step, hp, hf], trivial⟩
      exact hp ▸ goesOn_of hs (by simp [hp, left]) fun _ => rfl
  | hashed path metadata version kept =>
    have hs : u.Steps s (.clock p) (s.setPhase p (.timed path metadata version kept (RACY < s.now - changed metadata))) :=
      ⟨by simp [step, hp], trivial⟩
    exact hp ▸ goesOn_of hs (by simp [hp, left]) fun h => by cases h
  | timed path metadata version kept settled =>
    by_cases hboth : settled && (s.files path).any fun after => u.identity path after.metadata = u.identity path metadata
    · have hs : u.Steps s (.restat p) (s.setPhase p (.keyed (u.identity path metadata) kept (some (path, version)))) := by
        refine ⟨?_, trivial⟩
        simp only [step, hp]
        rw [if_pos hboth]
      exact hp ▸ goesOn_of hs (by simp [hp, left]) fun h => by cases h
    · have hs : u.Steps s (.restat p) (s.setPhase p (.returned path (u.digestBytes kept.bytes) version)) := by
        refine ⟨?_, trivial⟩
        simp only [step, hp]
        rw [if_neg hboth]
      exact hp ▸ goesOn_of hs (by simp [hp, left]) fun _ => rfl
  | keyed key kept call =>
    cases call with
    | none => simp [hp, left] at hleft
    | some call =>
      have hs : u.Steps s (.memoize p false) (s.setPhase p (.returned call.1 (u.digestBytes kept.bytes) call.2)) :=
        ⟨by simp [step, hp], trivial⟩
      exact hp ▸ goesOn_of hs (by simp [hp, left]) fun _ => rfl
  | _ => simp [hp, left] at hleft

/-- The digests that `file` returns are those of the files as they are, in
every run whose steps meet the condition; and each call of it ends. -/
theorem correct_of_unmixed (u : Setup) {now : Int} {ms : List (Move State Action)} {s : State}
    (hrun : Run u.Steps (.start now) ms s) (hunmixed : ∀ m ∈ ms, u.Unmixed m.pre m.label) :
    (∀ m ∈ ms, u.Correct m.post) ∧ u.Correct s ∧ u.GoesOn s := by
  have hinv := hrun.posts_of (Inv u) u.Unmixed (Inv.start u now) (fun s a t h hs hc => h.step hs hc) hunmixed
  exact ⟨fun m hm => (hinv.1 m hm).correct, hinv.2.correct, goesOn u s⟩

/-! ## A write in the tick of `remember` -/

/-- The process 0 wrote a large file, and its digest is remembered. -/
def remembered (u : Setup) (now : Int) (path : Text) (content : List UInt8) (metadata : Metadata) : State :=
  { (State.start now).replaced path (some ⟨content, metadata⟩) with
    memo := Function.update (fun _ => none) (u.identity path metadata) (some ⟨content, now⟩) }

theorem setPhase_setPhase (s : State) (p : Nat) (phase phase' : Phase) :
    (s.setPhase p phase).setPhase p phase' = s.setPhase p phase' := by
  simp [State.setPhase]

theorem step_remember {p : Nat} {kept : Kept} {f : File} (hp : s.phases p = .holding path kept) (hf : s.files path = some f)
    (hroot : u.root = true) (hlarge : SMALL ≤ f.metadata.len) :
    u.step s (.remember p) = some (s.setPhase p (.keyed (u.identity path f.metadata) kept none)) := by
  have hskip : ¬ (u.root = false ∨ f.metadata.len < SMALL ∨ ¬ validContentKey (u.digestBytes kept.bytes) = true) := by
    simp [hroot, u.digest_valid, hlarge]
  simp only [step, hp, hf]
  rw [if_neg hskip]

theorem exists_run_remembered {now : Int} {content : List UInt8} {metadata : Metadata} (hroot : u.root = true)
    (hlarge : SMALL ≤ metadata.len) (hadmits : u.Admits (.start now) path content metadata) :
    ∃ ms, Run u.Steps (.start now) ms (remembered u now path content metadata) ∧ ∀ m ∈ ms, u.Unmixed m.pre m.label := by
  let wrote := (State.start now).replaced path (some ⟨content, metadata⟩)
  have hput : u.Steps (.start now) (.put 0 path content metadata) (wrote.setPhase 0 (.holding path ⟨content, now⟩)) :=
    ⟨rfl, hadmits⟩
  have hfile : wrote.files path = some ⟨content, metadata⟩ := by simp [wrote, State.replaced]
  have hremember : u.Steps (wrote.setPhase 0 (.holding path ⟨content, now⟩)) (.remember 0)
      (wrote.setPhase 0 (.keyed (u.identity path metadata) ⟨content, now⟩ none)) := by
    refine ⟨?_, trivial⟩
    rw [step_remember (setPhase_self wrote 0 _) hfile hroot hlarge, setPhase_setPhase]
  have hmemoize : u.Steps (wrote.setPhase 0 (.keyed (u.identity path metadata) ⟨content, now⟩ none)) (.memoize 0 true)
      (remembered u now path content metadata) := by
    refine ⟨?_, trivial⟩
    simp [step, State.setPhase, remembered, wrote, State.replaced, State.start]
  refine ⟨_, ((Run.nil.snoc hput).snoc hremember).snoc hmemoize, ?_⟩
  intro m hm
  simp only [List.nil_append, List.cons_append, List.mem_cons, List.not_mem_nil, or_false] at hm
  rcases hm with rfl | rfl | rfl
  · intro kept hkeeps
    obtain h | ⟨p, call, h⟩ := hkeeps
    · cases h
    · cases h
  · intro path' kept f hp hf
    rw [setPhase_self] at hp
    obtain ⟨rfl, rfl⟩ := Phase.holding.inj hp
    obtain rfl := Option.some.inj (hfile.symm.trans hf)
    exact fun _ _ _ => rfl
  · trivial

/-- A call of `file` that finds a digest kept under the file's identity. -/
theorem exists_run_hit {now : Int} {ms : List (Move State Action)} (hrun : Run u.Steps (.start now) ms s) {kept : Kept} {f : File}
    (hroot : u.root = true) (hlarge : SMALL ≤ f.metadata.len) (hidle : s.phases 1 = .idle) (hf : s.files path = some f)
    (hmemo : s.memo (u.identity path f.metadata) = some kept) : ∃ more,
      Run u.Steps (.start now) (ms ++ more) (s.setPhase 1 (.returned path (u.digestBytes kept.bytes) (s.version path))) ∧
        ∀ m ∈ more, u.Unmixed m.pre m.label := by
  have hfile : u.Steps s (.file 1 path) (s.setPhase 1 (.stated path f.metadata (s.version path))) := by
    refine ⟨?_, trivial⟩
    simp [step, hidle, hf, hroot, Nat.not_lt.2 hlarge]
  have hread : u.Steps (s.setPhase 1 (.stated path f.metadata (s.version path))) (.readMemo 1 true)
      (s.setPhase 1 (.returned path (u.digestBytes kept.bytes) (s.version path))) := by
    refine ⟨?_, trivial⟩
    simp [step, State.setPhase, hmemo, trim_digest, u.digest_valid]
  refine ⟨_, by simpa using (hrun.snoc hfile).snoc hread, ?_⟩
  intro m hm
  simp only [List.mem_cons, List.not_mem_nil, or_false] at hm
  rcases hm with rfl | rfl <;> trivial

/-- The digest remembered, asked for with the file as it was. -/
theorem exists_run_fresh {now : Int} {content : List UInt8} {metadata : Metadata} (hroot : u.root = true)
    (hlarge : SMALL ≤ metadata.len) (hadmits : u.Admits (.start now) path content metadata) :
    ∃ ms s, Run u.Steps (.start now) ms s ∧ (∀ m ∈ ms, u.Unmixed m.pre m.label) ∧
      s.phases 1 = .returned path (u.digestBytes content) 1 := by
  obtain ⟨ms, hrun, hunmixed⟩ := exists_run_remembered hroot hlarge hadmits
  have hf : (remembered u now path content metadata).files path = some ⟨content, metadata⟩ := by
    simp [remembered, State.replaced]
  have hmemo : (remembered u now path content metadata).memo (u.identity path metadata) = some ⟨content, now⟩ := by
    simp [remembered]
  have hversion : (remembered u now path content metadata).version path = 1 := by
    simp [remembered, State.replaced, State.start]
  obtain ⟨more, hhit, hmore⟩ := exists_run_hit hrun hroot hlarge rfl hf hmemo
  refine ⟨_, _, hhit, fun m hm => ?_, by rw [setPhase_self, hversion]⟩
  rcases List.mem_append.1 hm with hm | hm
  · exact hunmixed m hm
  · exact hmore m hm

/-- The digest remembered, asked for after a write of other bytes with the same
identity. -/
theorem exists_run_stale {now : Int} {content content' : List UInt8} {metadata : Metadata} (hroot : u.root = true)
    (hlarge : SMALL ≤ metadata.len) (hadmits : u.Admits (.start now) path content metadata)
    (hadmits' : u.Admits (remembered u now path content metadata) path content' metadata) :
    ∃ ms s, Run u.Steps (.start now) ms s ∧ s.phases 1 = .returned path (u.digestBytes content) 2 ∧
      s.version path = 2 ∧ s.files path = some ⟨content', metadata⟩ := by
  obtain ⟨ms, hrun, -⟩ := exists_run_remembered hroot hlarge hadmits
  let rewritten := (remembered u now path content metadata).replaced path (some ⟨content', metadata⟩)
  have hwrite : u.Steps (remembered u now path content metadata) (.write path content' metadata) rewritten := ⟨rfl, hadmits'⟩
  have hf : rewritten.files path = some ⟨content', metadata⟩ := by simp [rewritten, State.replaced]
  have hmemo : rewritten.memo (u.identity path metadata) = some ⟨content, now⟩ := by
    simp [rewritten, remembered, State.replaced]
  have hversion : rewritten.version path = 2 := by simp [rewritten, remembered, State.replaced, State.start]
  obtain ⟨more, hhit, -⟩ := exists_run_hit (hrun.snoc hwrite) hroot hlarge rfl hf hmemo
  exact ⟨_, _, hhit, by rw [setPhase_self, hversion], hversion, hf⟩

end Setup

open Setup

/-- A digest that tells the two contents below, for the example. -/
def digestOf (bytes : List UInt8) : Text := List.replicate 64 (if bytes.head? = some 1 then '1' else '0')

/-- Changed at the start of the tick. -/
def exampleMetadata : Metadata where
  len := SMALL
  modified := 1700000000 * 1000000000
  created := none
  dev := 1
  ino := 2
  ctime := 1700000000
  ctimeNsec := 0

def exampleSetup : Setup where
  digestBytes := digestOf
  root := true
  tick := 4000000
  Hashed bytes := bytes = identityBytes "lib.rlib".toList exampleMetadata
  tick_lt := by decide
  digest_valid bytes := by
    unfold digestOf
    split <;> decide
  digest_inj a b ha hb _ := ha.trans hb.symm

theorem admits_example {s : State} (hnow : s.now = 1700000000 * 1000000000) (byte : UInt8) :
    exampleSetup.Admits s "lib.rlib".toList (List.replicate SMALL byte) exampleMetadata where
  path_clear := by decide
  len := by simp [exampleMetadata]
  hashed := rfl
  begun := by rw [hnow]; decide
  in_tick := by rw [hnow]; decide

/-- A digest remembered, and asked for with the file as it was. -/
theorem correct_remembered : ∃ ms s, Run exampleSetup.Steps (.start (1700000000 * 1000000000)) ms s ∧
    s.phases 1 = .returned "lib.rlib".toList (digestOf (List.replicate SMALL 0)) 1 ∧ exampleSetup.Correct s := by
  have hadmits := admits_example (s := .start (1700000000 * 1000000000)) rfl 0
  obtain ⟨ms, s, hrun, hunmixed, hreturned⟩ := exists_run_fresh rfl (Nat.le_refl _) hadmits
  exact ⟨ms, s, hrun, hreturned, (correct_of_unmixed exampleSetup hrun hunmixed).2.1⟩

/-- Other bytes written in the same tick, after the digest was remembered. -/
theorem not_correct_rewritten : ¬ ∀ (u : Setup) (now : Int) (ms : List (Move State Action)) (s : State),
    Run u.Steps (.start now) ms s → u.Correct s := by
  intro h
  have hadmits := admits_example (s := .start (1700000000 * 1000000000)) rfl 0
  have hadmits' := admits_example (s := remembered exampleSetup (1700000000 * 1000000000) "lib.rlib".toList
    (List.replicate SMALL 0) exampleMetadata) rfl 1
  obtain ⟨ms, s, hrun, hreturned, hversion, hf⟩ := exists_run_stale rfl (Nat.le_refl _) hadmits hadmits'
  obtain ⟨f, hf', hdigest⟩ := (h exampleSetup _ ms s hrun 1 _ 2 hversion).1 _ hreturned
  obtain rfl := Option.some.inj (hf.symm.trans hf')
  have hfirst : (List.replicate SMALL (0 : UInt8)).head? = some 0 := by simp [SMALL]
  have hsecond : (List.replicate SMALL (1 : UInt8)).head? = some 1 := by simp [SMALL]
  simp only [exampleSetup, digestOf, hfirst, hsecond] at hdigest
  exact absurd hdigest (by decide)

end Bellows.Cli.Digests
