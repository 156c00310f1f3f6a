/-
What a plan promises: which blobs it selects (`Sound`), which units it evicts
when there is no budget for executables (`LeastRecentlyUsed`), and what that
budget protects (`KeepsBudget`).
-/
import Bellows.Core.PlanFacts

namespace Bellows.Core

namespace Plan

open Snapshot

variable {s : Snapshot} {options : GcOptions} {now : Nat}

/-! ## Sound and exact -/

structure Sound (s : Snapshot) (options : GcOptions) (now : Nat) (plan : Plan) : Prop where
  /-- Every blob that the evictions free, and those unreferenced past their grace. -/
  selected_iff : ∀ blob, blob ∈ plan.selected ↔ blob < s.blobs.length ∧ s.SelectedBy now plan.evicted blob
  once : plan.selected.Nodup
  kept : ∀ (index : Nat) (unit : GcUnit), s.units[index]? = some unit → plan.evicted index = false →
    ∀ blob ∈ unit.blobs, blob ∉ plan.selected
  /-- No counter is decremented at zero, wherever the loop over a unit's blobs is. -/
  counts : ∀ e, Reached s now e → ∀ (index : Nat) (unit : GcUnit) (before after : List Nat) (blob : Nat),
    s.units[index]? = some unit → e.evicted index = false → unit.blobs = before ++ blob :: after →
    0 < (before.foldl (release s unit.kind index)
      { e with evicted := Function.update e.evicted index true }).remaining blob
  bytesAfter_eq : plan.bytesAfter = s.bytesWhere (· ∉ plan.selected)
  obsolete : ∀ index < s.units.length, s.isObsolete options index = true → plan.evicted index = true
  fits : plan.bytesAfter ≤ options.maxBytes ∨ ∀ index < s.units.length, plan.evicted index = true

/-- The second loop's part of what is evicted. -/
theorem exists_fitsAfter (hs : s.Built) (options : GcOptions) (now : Nat) :
    ∃ n, FitsAfter s options now (fitted s options now).evicted n ∧
      (new s options now).evicted = also (fitted s options now).evicted ((s.order options).take n) ∧
      (new s options now).bytesAfter = s.bytesAfter now (new s options now).evicted := by
  obtain ⟨n, hn, heq⟩ := evictions_spec hs options now
  exact ⟨n, hn, heq, ((reached_evictions s options now).exact hs).bytesAfter_eq⟩

theorem mem_selected (hs : s.Built) (options : GcOptions) (now blob : Nat) :
    blob ∈ (new s options now).selected ↔
      blob < s.blobs.length ∧ s.SelectedBy now (new s options now).evicted blob := by
  have hfreed := ((reached_evictions s options now).exact hs).mem_freed blob
  rw [selected, List.mem_append]
  have hunreferenced : blob ∈ (new s options now).unreferenced ↔ _ := mem_unreferenced
  rw [hunreferenced]
  refine (or_congr_left hfreed).trans ⟨?_, ?_⟩
  · rintro (hf | ⟨hlt, hu⟩)
    · exact ⟨hs.lt_length blob hf.1, .inl hf⟩
    · exact ⟨hlt, .inr hu⟩
  · rintro ⟨hlt, hf | hu⟩
    · exact .inl hf
    · exact .inr ⟨hlt, hu⟩

theorem nodup_selected (hs : s.Built) (options : GcOptions) (now : Nat) : (new s options now).selected.Nodup := by
  have hexact := (reached_evictions s options now).exact hs
  refine List.nodup_append.2 ⟨hexact.nodup_freed, s.nodup_unreferenced now, ?_⟩
  rintro blob hf other ho rfl
  exact ((hexact.mem_freed blob).1 hf).1 (mem_unreferenced.1 ho).2.1

/-- The bytes left are those not selected, if they can be counted. -/
theorem new_bytesAfter (hs : s.Built) (options : GcOptions) (now : Nat) (hfits : (s.blobs.map (·.bytes)).sum ≤ U64_MAX) :
    (new s options now).bytesAfter = s.bytesWhere (· ∉ (new s options now).selected) := by
  obtain ⟨-, -, -, hbytes⟩ := exists_fitsAfter hs options now
  have hselected : s.bytesWhere (s.SelectedBy now (new s options now).evicted) =
      s.bytesWhere (· ∈ (new s options now).selected) :=
    s.bytesWhere_congr fun blob hlt => by rw [mem_selected hs, and_iff_right hlt]
  have htotal : s.totalBytes = (s.blobs.map (·.bytes)).sum := by
    rw [hs.totalBytes_eq, foldl_saturatingAdd _ _ (Nat.zero_le _), Nat.zero_add]
    exact Nat.min_eq_left hfits
  rw [hbytes, Snapshot.bytesAfter, hselected, htotal, ← s.bytesWhere_add_not (· ∈ (new s options now).selected)]
  omega

/-- **The plan selects exactly what its evictions free and what is unreferenced
past its grace**, each blob once; it evicts every obsolete candidate, and units
until the bytes fit. -/
theorem new_sound (blobs : List GcBlob) (units : List (GcUnit × List Text)) (journalEntries startedMs : Nat)
    (options : GcOptions) (now : Nat) (hfits : (blobs.map (·.bytes)).sum ≤ U64_MAX) :
    Sound (build blobs units journalEntries startedMs) options now
      (new (build blobs units journalEntries startedMs) options now) := by
  have hs := built_build blobs units journalEntries startedMs
  rw [← build_blobs blobs units journalEntries startedMs] at hfits
  generalize build blobs units journalEntries startedMs = s at hs hfits
  obtain ⟨n, hn, hevicted, hbytes⟩ := exists_fitsAfter hs options now
  have hmem := mem_selected hs options now
  refine ⟨hmem, nodup_selected hs options now, fun index unit hu hkept blob hb hsel => ?_,
    fun e he index unit before after blob hu hnot hblobs => he.remaining_pos hs hu hnot hblobs,
    new_bytesAfter hs options now hfits, ?_, ?_⟩
  · have hi : index ∈ s.referrers blob := (hs.wellFormed.mem_referrers blob index).2 ⟨unit, hu, hb⟩
    rcases ((hmem blob).1 hsel).2 with hf | hun
    · rw [hf.2 index hi] at hkept
      cases hkept
    · rw [hun.1] at hi
      cases hi
  · intro index hlt ho
    rw [hevicted, also_eq_true]
    exact .inr (hn.obsolete_mem hlt ho)
  · rw [hbytes, hevicted]
    refine hn.fits.imp id fun hall index hlt => ?_
    rw [also_eq_true, hall, List.take_length]
    exact .inr ((mem_order s options).2 hlt)

/-- A unit of a record of that kind, last used then. -/
def usedUnit (kind : Kind) (lastUsedMs : Nat) : GcUnit where
  path := .action "c".toList
  candidate := none
  staticKey := none
  protocol := none
  crateName := "c".toList
  kind := kind
  pinned := false
  lastUsedMs := lastUsedMs
  blobs := []

/-- Two libraries that share a blob, the first with one of its own. -/
def sharedBlobs : List GcBlob := [⟨"a".toList, 10, 0⟩, ⟨"b".toList, 20, 0⟩]

def sharingUnits : List (GcUnit × List Text) :=
  [(usedUnit .library 1, ["a".toList, "b".toList, "a".toList]), (usedUnit .library 2, ["b".toList])]

theorem new_sound_sharing :
    Sound (build sharedBlobs sharingUnits 0 0) ⟨25, false, none, none⟩ 5
        (new (build sharedBlobs sharingUnits 0 0) ⟨25, false, none, none⟩ 5) ∧
      (new (build sharedBlobs sharingUnits 0 0) ⟨25, false, none, none⟩ 5).selected = [0] :=
  ⟨new_sound sharedBlobs sharingUnits 0 0 _ 5 (by decide +kernel), by decide +kernel⟩

/-! ## Least recently used -/

/-- Evicting the first `n` units of the order is enough. -/
structure Enough (s : Snapshot) (options : GcOptions) (now n : Nat) : Prop where
  obsolete : ∀ index < s.units.length, s.isObsolete options index = true → index ∈ (s.order options).take n
  fits : s.bytesAfter now (fun index => decide (index ∈ (s.order options).take n)) ≤ options.maxBytes

structure LeastRecentlyUsed (s : Snapshot) (options : GcOptions) (now : Nat) (plan : Plan) : Prop where
  /-- The first units of the order, as few as are enough; all if that is not. -/
  shortest : ∃ n ≤ s.units.length, (∀ index, plan.evicted index = true ↔ index ∈ (s.order options).take n) ∧
    (Enough s options now n ∨ n = s.units.length) ∧ ∀ m < n, ¬ Enough s options now m
  bytesAfter_eq : plan.bytesAfter = s.bytesAfter now plan.evicted
  oldest : ∀ evicted < s.units.length, ∀ kept < s.units.length, plan.evicted evicted = true → plan.evicted kept = false →
    s.isObsolete options evicted = false → s.isObsolete options kept = false → s.lastUsed evicted ≤ s.lastUsed kept
  monotone : ∀ more ≥ options.maxBytes, ∀ index,
    (new s { options with maxBytes := more } now).evicted index = true → plan.evicted index = true

/-- How many units the loop takes from the order. -/
structure Shortest (s : Snapshot) (options : GcOptions) (now n : Nat) : Prop where
  le_length : n ≤ s.units.length
  enough : Enough s options now n ∨ n = s.units.length
  minimal : ∀ m < n, ¬ Enough s options now m

theorem length_order (s : Snapshot) (options : GcOptions) : (s.order options).length = s.units.length := by
  rw [Snapshot.order, List.length_insertionSort, List.length_range]

theorem exists_shortest (hs : s.Built) {options : GcOptions} (hnone : options.maxExecutableBytes = none) (now : Nat) :
    ∃ n, Shortest s options now n ∧
      ∀ index, (new s options now).evicted index = true ↔ index ∈ (s.order options).take n := by
  obtain ⟨n, hn, hevicted, -⟩ := exists_fitsAfter hs options now
  have hstart : (fitted s options now).evicted = fun _ => false := by
    rw [fitted, hnone]
    rfl
  have halso : ∀ l, also (fitted s options now).evicted l = fun index => decide (index ∈ l) := fun l => by
    funext index
    simp [also, hstart]
  refine ⟨n, ⟨length_order s options ▸ hn.le_length, ?_, fun m hm henough => ?_⟩, fun index => ?_⟩
  · rw [← length_order s options]
    refine hn.fits.imp (fun hfits => ⟨fun index hlt ho => hn.obsolete_mem hlt ho, ?_⟩) id
    rwa [halso] at hfits
  · have hmlt : m < (s.order options).length := Nat.lt_of_lt_of_le hm hn.le_length
    rcases hn.goes_on m _ hm (List.getElem?_eq_getElem hmlt) with hover | ho
    · rw [halso] at hover
      exact Nat.not_lt_of_le henough.fits hover
    · -- an obsolete unit that comes next is not among those before it
      have hmem := henough.obsolete _ ((mem_order s options).1 (List.getElem_mem hmlt)) ho
      obtain ⟨j, hj, heq⟩ := List.mem_take_iff_getElem.1 hmem
      have hjm := (List.Nodup.getElem_inj_iff (nodup_order s options)).1 heq
      omega
  · rw [hevicted, halso, decide_eq_true_iff]

/-- **Without a budget for executables, the plan evicts the shortest prefix of
the order that is enough**: the least recently used units, and no more for a
larger budget. -/
theorem new_leastRecentlyUsed (blobs : List GcBlob) (units : List (GcUnit × List Text)) (journalEntries startedMs : Nat)
    (options : GcOptions) (now : Nat) (hnone : options.maxExecutableBytes = none) :
    LeastRecentlyUsed (build blobs units journalEntries startedMs) options now
      (new (build blobs units journalEntries startedMs) options now) := by
  have hs := built_build blobs units journalEntries startedMs
  generalize build blobs units journalEntries startedMs = s at hs
  obtain ⟨n, hn, hevicted⟩ := exists_shortest hs hnone now
  refine ⟨⟨n, hn.le_length, hevicted, hn.enough, hn.minimal⟩,
    ((reached_evictions s options now).exact hs).bytesAfter_eq, ?_, ?_⟩
  · intro i hi j hj hevictedI hkept hoi hoj
    obtain ⟨a, ha, hia⟩ := List.mem_take_iff_getElem.1 ((hevicted i).1 hevictedI)
    obtain ⟨b, hb, hjb⟩ := List.getElem_of_mem ((mem_order s options).2 hj)
    have hab : a < b := by
      by_contra hba
      rw [(hevicted j).2 (List.mem_take_iff_getElem.2 ⟨b, by omega, hjb⟩)] at hkept
      cases hkept
    have hprec := List.pairwise_iff_getElem.1 (pairwise_order s options) a b (by omega) hb hab
    rw [hia, hjb, precedes_iff, hoi, hoj] at hprec
    obtain ⟨hobsolete, -⟩ | ⟨-, hprec⟩ := hprec
    · cases hobsolete
    · omega
  · intro more hmore index hev
    have hmoreNone : ({ options with maxBytes := more } : GcOptions).maxExecutableBytes = none := hnone
    obtain ⟨m, hm, hevictedM⟩ := exists_shortest hs hmoreNone now
    have hle : m ≤ n := by
      by_contra hlt
      have hmn := hm.minimal n (by omega)
      rcases hn.enough with henough | heq
      · exact hmn ⟨henough.obsolete, Nat.le_trans henough.fits hmore⟩
      · have hlen := hm.le_length
        omega
    exact (hevicted index).2 (List.take_subset_take_left _ hle ((hevictedM index).1 hev))

theorem new_leastRecentlyUsed_sharing :
    LeastRecentlyUsed (build sharedBlobs sharingUnits 0 0) ⟨5, false, none, none⟩ 5
        (new (build sharedBlobs sharingUnits 0 0) ⟨5, false, none, none⟩ 5) ∧
      (new (build sharedBlobs sharingUnits 0 0) ⟨5, false, none, none⟩ 5).evicted 1 = true :=
  ⟨new_leastRecentlyUsed sharedBlobs sharingUnits 0 0 _ 5 rfl, by decide +kernel⟩

/-! ## The executable budget -/

/-- Something references the blob, and only executables. -/
def ExecutableOnly (s : Snapshot) (blob : Nat) : Prop := s.FreedBy s.isExecutable blob

instance (s : Snapshot) : DecidablePred (ExecutableOnly s) := fun _ => inferInstanceAs (Decidable (s.FreedBy _ _))

/-- A unit that is no executable references the blob. -/
def Shared (s : Snapshot) (blob : Nat) : Prop := ∃ index ∈ s.referrers blob, s.isExecutable index = false

instance (s : Snapshot) : DecidablePred (Shared s) := fun _ => inferInstanceAs (Decidable (∃ _ ∈ _, _))

/-- Nothing references the blob, and it is within its grace. -/
def Protected (s : Snapshot) (now blob : Nat) : Prop := s.referrers blob = [] ∧ s.withinGrace now blob = true

instance (s : Snapshot) (now : Nat) : DecidablePred (Protected s now) := fun _ => inferInstanceAs (Decidable (_ ∧ _))

structure KeepsBudget (s : Snapshot) (options : GcOptions) (now budget : Nat) (plan : Plan) : Prop where
  fits : s.bytesWhere (fun blob => ExecutableOnly s blob ∧ blob ∉ plan.selected) ≤ budget
  /-- Where all else fits beside the budget, only executables and obsolete
  candidates are evicted. -/
  protects : s.bytesWhere (Shared s) + s.bytesWhere (Protected s now) + budget ≤ options.maxBytes →
    ∀ index < s.units.length, s.isExecutable index = false → s.isObsolete options index = false →
      plan.evicted index = false

/-- What holds throughout the loop over executables: what they free is taken
off the bytes that only executables reference. -/
structure Executables (s : Snapshot) (now : Nat) (e : Evictions) : Prop where
  reached : Reached s now e
  isExecutable : ∀ index, e.evicted index = true → s.isExecutable index = true
  bytes : e.executableBytes = s.bytesWhere (ExecutableOnly s) - s.bytesWhere (s.FreedBy e.evicted)

theorem executableOnlyBytes_eq (hlt : s.bytesWhere (ExecutableOnly s) < 2 ^ 64) :
    s.executableOnlyBytes = s.bytesWhere (ExecutableOnly s) := by
  have hsum : (((List.range s.blobs.length).filter fun blob =>
      !(s.referrers blob).isEmpty && (s.referrers blob).all s.isExecutable).map s.bytesOf).sum =
        s.bytesWhere (ExecutableOnly s) := by
    rw [s.sum_bytesOf (List.nodup_range.filter _) fun blob hb => List.mem_range.1 (List.mem_filter.1 hb).1]
    refine s.bytesWhere_congr fun blob hb => ?_
    rw [List.mem_filter, List.mem_range, and_iff_right hb]
    simp [ExecutableOnly, FreedBy]
  rw [executableOnlyBytes, hsum, Nat.mod_eq_of_lt hlt]

theorem start_executables (hlt : s.bytesWhere (ExecutableOnly s) < 2 ^ 64) (now : Nat) :
    Executables s now (start s now) where
  reached := .start
  isExecutable := by simp [start]
  bytes := by
    rw [bytesWhere_freedBy_start, Nat.sub_zero]
    exact executableOnlyBytes_eq hlt

theorem Executables.evict (hs : s.Built) {e : Evictions} (h : Executables s now e) {index : Nat}
    (hx : s.isExecutable index = true) : Executables s now (evict s e index) := by
  obtain ⟨unit, hu, hkind⟩ : ∃ unit, s.units[index]? = some unit ∧ unit.kind = .executable := by
    unfold Snapshot.isExecutable at hx
    cases hu : s.units[index]? with
    | none => simp [hu] at hx
    | some unit => exact ⟨unit, rfl, by simpa [hu] using hx⟩
  obtain ⟨hlt, -⟩ := List.getElem?_eq_some_iff.1 hu
  refine ⟨h.reached.evict index, fun i hi => ?_, ?_⟩
  · rcases (evict_evicted hs e hlt i).1 hi with hold | rfl
    · exact h.isExecutable i hold
    · exact hx
  · cases hnot : e.evicted index with
    | true =>
      rw [evict_of_evicted hnot]
      exact h.bytes
    | false =>
      rw [evict_eq hs.wellFormed e hu hnot]
      dsimp only
      rw [if_pos hkind, h.bytes, (h.reached.exact hs).sum_lastOf hs hu hnot, Nat.sub_sub]

/-- One round of the loop over executables. -/
def evictExecutable (s : Snapshot) (e : Evictions) (index : Nat) : Evictions :=
  if s.isExecutable index then evict s e index else e

theorem foldl_evictExecutable (hs : s.Built) {index : Nat} (hx : s.isExecutable index = true)
    (hlt : index < s.units.length) : ∀ (l : List Nat) (e : Evictions), (∀ i ∈ l, i < s.units.length) →
      index ∈ l ∨ e.evicted index = true → (l.foldl (evictExecutable s) e).evicted index = true
  | [], e, _, h => h.resolve_left List.not_mem_nil
  | i :: l, e, hl, h => by
    obtain ⟨hi, hl⟩ := List.forall_mem_cons.1 hl
    refine foldl_evictExecutable hs hx hlt l _ hl ?_
    unfold evictExecutable
    rcases h with hmem | hev
    · rcases List.mem_cons.1 hmem with rfl | hmem
      · rw [if_pos hx]
        exact .inr ((evict_evicted hs e hi index).2 (.inr rfl))
      · exact .inl hmem
    · right
      split
      · exact (evict_evicted hs e hi index).2 (.inl hev)
      · exact hev

/-- The loop over executables breaks within the budget, or has evicted all of
them. -/
theorem fitted_executables (hs : s.Built) (hlt : s.bytesWhere (ExecutableOnly s) < 2 ^ 64) {budget : Nat}
    (hsome : options.maxExecutableBytes = some budget) (now : Nat) :
    Executables s now (fitted s options now) ∧ (fitted s options now).executableBytes ≤ budget := by
  have hloop : fitted s options now = Until.foldUntil (fun e _ => e.executableBytes ≤ budget) (evictExecutable s)
      (s.order options) (start s now) := by
    rw [fitted, hsome]
    exact evictExecutables_eq s budget _ _
  have hinv : Executables s now (fitted s options now) := by
    rw [hloop]
    refine Until.foldUntil_keeps (fun e index h => ?_) _ (start_executables hlt now)
    unfold evictExecutable
    split
    · next hx => exact h.evict hs hx
    · exact h
  refine ⟨hinv, ?_⟩
  obtain ⟨n, hn, heq⟩ := Until.exists_stopsAt (fun (e : Evictions) _ => decide (e.executableBytes ≤ budget))
    (evictExecutable s) (s.order options) (start s now)
  rw [← hloop] at heq
  rcases Nat.lt_or_eq_of_le hn.le_length with hbreak | hall
  · have hstop := hn.stops _ (List.getElem?_eq_getElem hbreak)
    rwa [← heq, decide_eq_true_iff] at hstop
  · rw [hall, List.take_length] at heq
    have hfreed : s.bytesWhere (ExecutableOnly s) ≤ s.bytesWhere (s.FreedBy (fitted s options now).evicted) := by
      refine s.bytesWhere_mono fun blob _ hx => ⟨hx.1, fun index hi => ?_⟩
      obtain ⟨unit, hu, -⟩ := (hs.wellFormed.mem_referrers blob index).1 hi
      obtain ⟨hilt, -⟩ := List.getElem?_eq_some_iff.1 hu
      rw [heq]
      exact foldl_evictExecutable hs (hx.2 index hi) hilt _ _ (fun i hi => (mem_order s options).1 hi)
        (.inl ((mem_order s options).2 hilt))
    rw [hinv.bytes, Nat.sub_eq_zero_of_le hfreed]
    exact Nat.zero_le _

theorem new_evicted_of_fitted (hs : s.Built) (options : GcOptions) (now : Nat) {index : Nat}
    (h : (fitted s options now).evicted index = true) : (new s options now).evicted index = true := by
  obtain ⟨n, -, hevicted, -⟩ := exists_fitsAfter hs options now
  rw [hevicted, also_eq_true]
  exact .inl h

/-- What is left is shared, protected, or left of the executables. -/
theorem totalBytes_le (hs : s.Built) (now : Nat) (evicted : Nat → Bool) :
    s.bytesAfter now evicted ≤ s.bytesWhere (Shared s) + s.bytesWhere (Protected s now) +
      s.bytesWhere fun blob => ExecutableOnly s blob ∧ ¬ s.FreedBy evicted blob := by
  have htotal : s.totalBytes ≤ (s.blobs.map (·.bytes)).sum := by
    rw [hs.totalBytes_eq, foldl_saturatingAdd _ _ (Nat.zero_le _), Nat.zero_add]
    exact Nat.min_le_left _ _
  have hsplit := s.bytesWhere_add_not (s.SelectedBy now evicted)
  have hkinds : s.bytesWhere (fun blob => ¬ s.SelectedBy now evicted blob) ≤
      s.bytesWhere fun blob => (Shared s blob ∨ Protected s now blob) ∨
        ExecutableOnly s blob ∧ ¬ s.FreedBy evicted blob := by
    refine s.bytesWhere_mono fun blob _ hkept => ?_
    by_cases hnone : s.referrers blob = []
    · refine .inl (.inr ⟨hnone, ?_⟩)
      cases hgrace : s.withinGrace now blob with
      | true => rfl
      | false => exact absurd (.inr ⟨hnone, hgrace⟩) hkept
    · by_cases hx : ExecutableOnly s blob
      · exact .inr ⟨hx, fun hf => hkept (.inl hf)⟩
      · obtain ⟨index, hi, hnot⟩ : ∃ index ∈ s.referrers blob, s.isExecutable index ≠ true := by
          simpa [ExecutableOnly, FreedBy, hnone] using hx
        exact .inl (.inl ⟨index, hi, Bool.eq_false_iff.2 hnot⟩)
  rw [s.bytesWhere_or, s.bytesWhere_or] at hkinds
  · rw [Snapshot.bytesAfter]
    omega
  · rintro blob _ ⟨index, hi, -⟩ hp
    rw [hp.1] at hi
    cases hi
  · rintro blob _ (⟨index, hi, hnot⟩ | hp) ⟨hx, -⟩
    · rw [hx.2 index hi] at hnot
      cases hnot
    · exact hx.1 hp.1

/-- **The executables that survive are within their budget, and where all else
fits beside it they alone are evicted**, obsolete candidates apart, unless the
bytes that only executables reference overflow. -/
theorem new_keepsBudget (blobs : List GcBlob) (units : List (GcUnit × List Text)) (journalEntries startedMs : Nat)
    (options : GcOptions) (now budget : Nat) (hsome : options.maxExecutableBytes = some budget)
    (hlt : (build blobs units journalEntries startedMs).bytesWhere
      (ExecutableOnly (build blobs units journalEntries startedMs)) < 2 ^ 64) :
    KeepsBudget (build blobs units journalEntries startedMs) options now budget
      (new (build blobs units journalEntries startedMs) options now) := by
  have hs := built_build blobs units journalEntries startedMs
  generalize build blobs units journalEntries startedMs = s at hs hlt
  obtain ⟨hinv, hbudget⟩ := fitted_executables hs hlt hsome now
  have hleft : s.bytesWhere (fun blob => ExecutableOnly s blob ∧ ¬ s.FreedBy (fitted s options now).evicted blob) ≤
      budget := by
    have hor := s.bytesWhere_or (p := s.FreedBy (fitted s options now).evicted)
      (q := fun blob => ExecutableOnly s blob ∧ ¬ s.FreedBy (fitted s options now).evicted blob)
      fun blob _ hf hx => hx.2 hf
    have hall : s.bytesWhere (ExecutableOnly s) = s.bytesWhere fun blob =>
        s.FreedBy (fitted s options now).evicted blob ∨
          ExecutableOnly s blob ∧ ¬ s.FreedBy (fitted s options now).evicted blob := by
      refine s.bytesWhere_congr fun blob _ => ?_
      have hsub : s.FreedBy (fitted s options now).evicted blob → ExecutableOnly s blob := FreedBy.mono hinv.isExecutable
      tauto
    have hbytes := hinv.bytes
    omega
  refine ⟨Nat.le_trans (s.bytesWhere_mono fun blob hblob => ?_) hleft, fun hroom index hilt hnotX hnotO => ?_⟩
  · rintro ⟨hx, hsel⟩
    refine ⟨hx, fun hf => hsel ((mem_selected hs options now blob).2 ⟨hblob, .inl ?_⟩)⟩
    exact hf.mono fun index => new_evicted_of_fitted hs options now
  · obtain ⟨n, hn, hevicted, -⟩ := exists_fitsAfter hs options now
    have hfit := totalBytes_le hs now (fitted s options now).evicted
    rw [hevicted, Bool.eq_false_iff, Ne, also_eq_true]
    rintro (hf | hmem)
    · rw [hinv.isExecutable index hf] at hnotX
      cases hnotX
    · obtain ⟨j, hj, hget⟩ := List.mem_take_iff_getElem.1 hmem
      rcases hn.goes_on j index (by omega) (List.getElem?_eq_some_iff.2 ⟨by omega, hget⟩) with hover | ho
      · have hanti : s.bytesAfter now (also (fitted s options now).evicted ((s.order options).take j)) ≤
            s.bytesAfter now (fitted s options now).evicted :=
          bytesAfter_anti fun i hi => also_eq_true.2 (.inl hi)
        omega
      · rw [ho] at hnotO
        cases hnotO

/-- A library, and an executable that shares a blob with it. -/
def mixedUnits : List (GcUnit × List Text) :=
  [(usedUnit .executable 1, ["a".toList, "b".toList]), (usedUnit .library 0, ["b".toList])]

theorem new_keepsBudget_mixed :
    KeepsBudget (build sharedBlobs mixedUnits 0 0) ⟨25, false, none, some 5⟩ 5 5
        (new (build sharedBlobs mixedUnits 0 0) ⟨25, false, none, some 5⟩ 5) ∧
      (new (build sharedBlobs mixedUnits 0 0) ⟨25, false, none, some 5⟩ 5).selected = [0] :=
  ⟨new_keepsBudget sharedBlobs mixedUnits 0 0 _ 5 5 rfl (by decide +kernel), by decide +kernel⟩

/-- Two executables of `2 ^ 63` bytes each: their sum wraps to none at all. -/
theorem new_exceeds_budget : ¬ ∀ (blobs : List GcBlob) (units : List (GcUnit × List Text)) (journalEntries startedMs : Nat)
    (options : GcOptions) (now budget : Nat), options.maxExecutableBytes = some budget →
      KeepsBudget (build blobs units journalEntries startedMs) options now budget
        (new (build blobs units journalEntries startedMs) options now) := by
  intro h
  have hfits := (h [⟨"a".toList, 2 ^ 63, 0⟩, ⟨"b".toList, 2 ^ 63, 0⟩]
    [(usedUnit .executable 1, ["a".toList]), (usedUnit .executable 2, ["b".toList])] 0 0
    ⟨U64_MAX, false, none, some 0⟩ 5 0 rfl).fits
  revert hfits
  decide +kernel

end Plan

end Bellows.Core
