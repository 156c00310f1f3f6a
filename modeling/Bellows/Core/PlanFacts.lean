/-
What a plan selects, exactly.

At every point of the two loops, the blobs freed are those all of whose
referrers are evicted (`Evictions.Exact`): each is freed by the last of them,
once. Both loops evict further units until they break, and the second breaks
only where the bytes fit and no unit left in the order is obsolete
(`evictions_spec`).
-/
import Mathlib.Algebra.BigOperators.Group.Finset.Basic
import Mathlib.Algebra.BigOperators.Group.Finset.Piecewise
import Mathlib.Algebra.Order.BigOperators.Group.Finset
import Bellows.Core.GcFacts

namespace Bellows.Core

namespace Snapshot

/-! ## Snapshots -/

/-- A snapshot before its first unit. -/
def empty (blobs : List GcBlob) (journalEntries startedMs : Nat) : Snapshot where
  units := []
  blobs := blobs
  referrers := fun _ => []
  journalEntries := journalEntries
  totalBytes := (blobs.map (·.bytes)).foldl saturatingAdd 0
  startedMs := startedMs

/-- A snapshot as `add` builds it, of any units. -/
def build (blobs : List GcBlob) (units : List (GcUnit × List Text)) (journalEntries startedMs : Nat) : Snapshot :=
  units.foldl (fun s unit => s.add unit.1 unit.2) (empty blobs journalEntries startedMs)

theorem read_eq_build (uses : Uses) (blobs : List GcBlob) (records : List Scanned) (startedMs : Nat) :
    read uses blobs records startedMs = build blobs (records.map fun r => (unitOf uses r, r.record.digests))
      (uses.map (·.1)).dedup.length startedMs := by
  rw [build, List.foldl_map]
  rfl

/-- What every snapshot that is built satisfies. -/
structure Built (s : Snapshot) : Prop where
  wellFormed : s.WellFormed
  lt_length : ∀ blob, s.referrers blob ≠ [] → blob < s.blobs.length
  totalBytes_eq : s.totalBytes = (s.blobs.map (·.bytes)).foldl saturatingAdd 0

theorem byDigest_lt {blobs : List GcBlob} {digest : Text} {blob : Nat} (h : byDigest blobs digest = some blob) :
    blob < blobs.length := by
  obtain ⟨entry, hlast, rfl⟩ := Option.map_eq_some_iff.1 h
  have hmem := (List.mem_filter.1 (List.mem_of_getLast? hlast)).1
  rw [List.mem_zipIdx_iff_getElem?] at hmem
  exact (List.getElem?_eq_some_iff.1 hmem).1

theorem Built.add {s : Snapshot} (h : s.Built) (unit : GcUnit) (digests : List Text) : (s.add unit digests).Built where
  wellFormed := h.wellFormed.add unit digests
  lt_length := by
    intro blob hne
    simp only [Snapshot.add] at hne ⊢
    split at hne
    · next hmem =>
      obtain ⟨digest, -, hd⟩ := mem_references.1 hmem
      exact byDigest_lt hd
    · exact h.lt_length blob hne
  totalBytes_eq := h.totalBytes_eq

theorem built_build (blobs : List GcBlob) (units : List (GcUnit × List Text)) (journalEntries startedMs : Nat) :
    (build blobs units journalEntries startedMs).Built := by
  suffices hs : ∀ (units : List (GcUnit × List Text)) (s : Snapshot), s.Built →
      (units.foldl (fun s unit => s.add unit.1 unit.2) s).Built from
    hs units _ ⟨⟨by simp [empty], by simp [empty], by simp [empty]⟩, by simp [empty], rfl⟩
  intro units
  induction units with
  | nil => exact fun s h => h
  | cons unit units ih => exact fun s h => ih _ (h.add unit.1 unit.2)

@[simp] theorem build_blobs (blobs : List GcBlob) (units : List (GcUnit × List Text)) (journalEntries startedMs : Nat) :
    (build blobs units journalEntries startedMs).blobs = blobs := by
  suffices hs : ∀ (units : List (GcUnit × List Text)) (s : Snapshot),
      (units.foldl (fun s unit => s.add unit.1 unit.2) s).blobs = s.blobs from hs units _
  intro units
  induction units with
  | nil => exact fun s => rfl
  | cons unit units ih => exact fun s => (ih _).trans rfl

/-! ## Bytes -/

/-- The bytes of the blobs of a kind. -/
def bytesWhere (s : Snapshot) (p : Nat → Prop) [DecidablePred p] : Nat :=
  ∑ blob ∈ Finset.range s.blobs.length with p blob, s.bytesOf blob

section
variable (s : Snapshot) {p q : Nat → Prop} [DecidablePred p] [DecidablePred q]

theorem bytesWhere_congr (h : ∀ blob < s.blobs.length, p blob ↔ q blob) : s.bytesWhere p = s.bytesWhere q := by
  refine Finset.sum_congr (Finset.filter_congr fun blob hb => h blob (Finset.mem_range.1 hb)) fun _ _ => rfl

theorem bytesWhere_mono (h : ∀ blob < s.blobs.length, p blob → q blob) : s.bytesWhere p ≤ s.bytesWhere q := by
  refine Finset.sum_le_sum_of_subset fun blob hb => ?_
  obtain ⟨hlt, hp⟩ := Finset.mem_filter.1 hb
  exact Finset.mem_filter.2 ⟨hlt, h blob (Finset.mem_range.1 hlt) hp⟩

/-- Of two kinds that exclude each other. -/
theorem bytesWhere_or (h : ∀ blob < s.blobs.length, p blob → ¬ q blob) :
    s.bytesWhere (fun blob => p blob ∨ q blob) = s.bytesWhere p + s.bytesWhere q := by
  rw [bytesWhere, Finset.filter_or, Finset.sum_union]
  · rfl
  · refine Finset.disjoint_left.2 fun blob hp hq => ?_
    obtain ⟨hlt, hp⟩ := Finset.mem_filter.1 hp
    exact h blob (Finset.mem_range.1 hlt) hp (Finset.mem_filter.1 hq).2

theorem bytesWhere_add_not (p : Nat → Prop) [DecidablePred p] :
    s.bytesWhere p + s.bytesWhere (fun blob => ¬ p blob) = (s.blobs.map (·.bytes)).sum := by
  have hmap : (List.range s.blobs.length).map s.bytesOf = s.blobs.map (·.bytes) := by
    refine List.ext_getElem (by simp) fun i h h' => ?_
    have hlt : i < s.blobs.length := by simpa using h
    simp [bytesOf, List.getElem?_eq_getElem hlt]
  rw [bytesWhere, bytesWhere, Finset.sum_filter_add_sum_filter_not, ← hmap, ← List.sum_toFinset _ List.nodup_range]
  exact Finset.sum_congr (Finset.ext fun blob => by rw [List.mem_toFinset, List.mem_range, Finset.mem_range])
    fun _ _ => rfl

/-- A list of blobs, each once, has the bytes of what is in it. -/
theorem sum_bytesOf {l : List Nat} (hn : l.Nodup) (hlt : ∀ blob ∈ l, blob < s.blobs.length) :
    (l.map s.bytesOf).sum = s.bytesWhere (· ∈ l) := by
  rw [bytesWhere, ← List.sum_toFinset _ hn]
  refine Finset.sum_congr (Finset.ext fun blob => ?_) fun _ _ => rfl
  rw [List.mem_toFinset, Finset.mem_filter, Finset.mem_range]
  exact ⟨fun h => ⟨hlt blob h, h⟩, fun h => h.2⟩

end

theorem foldl_saturatingAdd : ∀ (l : List Nat) (a : Nat), a ≤ U64_MAX →
    l.foldl saturatingAdd a = min (a + l.sum) U64_MAX
  | [], a, h => by simp [h]
  | b :: l, a, h => by
    rw [List.foldl_cons, List.sum_cons, foldl_saturatingAdd l (saturatingAdd a b) (min_le_right _ _), saturatingAdd]
    omega

theorem foldl_sub : ∀ (l : List Nat) (a : Nat), l.foldl (· - ·) a = a - l.sum
  | [], a => by simp
  | b :: l, a => by
    rw [List.foldl_cons, foldl_sub l, List.sum_cons]
    omega

/-! ## What evictions free -/

/-- Every referrer is evicted, and there is one. -/
def FreedBy (s : Snapshot) (evicted : Nat → Bool) (blob : Nat) : Prop :=
  s.referrers blob ≠ [] ∧ ∀ index ∈ s.referrers blob, evicted index = true

instance (s : Snapshot) (evicted : Nat → Bool) : DecidablePred (s.FreedBy evicted) :=
  fun _ => inferInstanceAs (Decidable (_ ∧ _))

/-- Nothing references the blob, and its grace is over. -/
def Unclaimed (s : Snapshot) (now blob : Nat) : Prop := s.referrers blob = [] ∧ s.withinGrace now blob = false

instance (s : Snapshot) (now : Nat) : DecidablePred (s.Unclaimed now) := fun _ => inferInstanceAs (Decidable (_ ∧ _))

/-- What is deleted when the units `evicted` are. -/
def SelectedBy (s : Snapshot) (now : Nat) (evicted : Nat → Bool) (blob : Nat) : Prop :=
  s.FreedBy evicted blob ∨ s.Unclaimed now blob

instance (s : Snapshot) (now : Nat) (evicted : Nat → Bool) : DecidablePred (s.SelectedBy now evicted) :=
  fun _ => inferInstanceAs (Decidable (_ ∨ _))

/-- The bytes left when the units `evicted` are. -/
def bytesAfter (s : Snapshot) (now : Nat) (evicted : Nat → Bool) : Nat :=
  s.totalBytes - s.bytesWhere (s.SelectedBy now evicted)

section
variable {s : Snapshot} {now : Nat} {evicted more : Nat → Bool}

theorem FreedBy.mono (h : ∀ index, evicted index = true → more index = true) {blob : Nat} (hf : s.FreedBy evicted blob) :
    s.FreedBy more blob :=
  ⟨hf.1, fun index hi => h index (hf.2 index hi)⟩

theorem evicted_update {index i : Nat} (h : evicted i = true) : Function.update evicted index true i = true := by
  by_cases heq : i = index
  · rw [heq, Function.update_self]
  · rw [Function.update_of_ne heq, h]

theorem SelectedBy.mono (h : ∀ index, evicted index = true → more index = true) {blob : Nat}
    (hs : s.SelectedBy now evicted blob) : s.SelectedBy now more blob :=
  hs.imp (FreedBy.mono h) id

/-- More evictions leave no more bytes. -/
theorem bytesAfter_anti (h : ∀ index, evicted index = true → more index = true) :
    s.bytesAfter now more ≤ s.bytesAfter now evicted :=
  Nat.sub_le_sub_left (s.bytesWhere_mono fun _ _ => SelectedBy.mono h) _

theorem bytesWhere_selectedBy (evicted : Nat → Bool) : s.bytesWhere (s.SelectedBy now evicted) =
    s.bytesWhere (s.FreedBy evicted) + s.bytesWhere (s.Unclaimed now) :=
  s.bytesWhere_or fun _ _ hf hu => hf.1 hu.1

theorem mem_unreferenced {blob : Nat} :
    blob ∈ s.unreferenced now ↔ blob < s.blobs.length ∧ s.Unclaimed now blob := by
  simp [unreferenced, unreferencedBlobs, Unclaimed, and_comm]

theorem nodup_unreferenced (s : Snapshot) (now : Nat) : (s.unreferenced now).Nodup :=
  (List.nodup_range.filter _).filter _

theorem sum_unreferenced (s : Snapshot) (now : Nat) :
    ((s.unreferenced now).map s.bytesOf).sum = s.bytesWhere (s.Unclaimed now) := by
  rw [s.sum_bytesOf (s.nodup_unreferenced now) fun blob hb => (mem_unreferenced.1 hb).1]
  exact s.bytesWhere_congr fun blob hlt => by rw [mem_unreferenced, and_iff_right hlt]

end

end Snapshot

/-! ## The loops -/

namespace Plan

open Snapshot

/-- What holds of the evictions after any number of them. -/
structure Evictions.Exact (s : Snapshot) (now : Nat) (e : Evictions) : Prop where
  remaining : ∀ blob, e.remaining blob = (s.referrers blob).countP fun index => !e.evicted index
  mem_freed : ∀ blob, blob ∈ e.freed.map (·.1) ↔ s.FreedBy e.evicted blob
  nodup_freed : (e.freed.map (·.1)).Nodup
  bytesAfter_eq : e.bytesAfter = s.bytesAfter now e.evicted

variable {s : Snapshot} {now : Nat}

theorem bytesWhere_freedBy_start (s : Snapshot) (now : Nat) : s.bytesWhere (s.FreedBy (start s now).evicted) = 0 := by
  refine Finset.sum_eq_zero fun blob hb => ?_
  obtain ⟨hne, hall⟩ := (Finset.mem_filter.1 hb).2
  obtain ⟨index, hi⟩ := List.exists_mem_of_ne_nil _ hne
  cases hall index hi

theorem start_exact (s : Snapshot) (now : Nat) : (start s now).Exact s now where
  remaining := by
    intro blob
    simp [start]
  mem_freed := by
    intro blob
    refine iff_of_false List.not_mem_nil fun h => ?_
    obtain ⟨index, hi⟩ := List.exists_mem_of_ne_nil _ h.1
    cases h.2 index hi
  nodup_freed := List.nodup_nil
  bytesAfter_eq := by
    rw [Snapshot.bytesAfter, bytesWhere_selectedBy, bytesWhere_freedBy_start, Nat.zero_add, ← sum_unreferenced]
    exact foldl_sub _ _

/-- The unit is the last referrer of what its eviction frees. -/
theorem Evictions.Exact.mem_lastOf (hs : s.Built) {e : Evictions} (h : e.Exact s now) {index : Nat} {unit : GcUnit}
    (hu : s.units[index]? = some unit) (hnot : e.evicted index = false) (blob : Nat) :
    blob ∈ lastOf e unit.blobs ↔
      s.FreedBy (Function.update e.evicted index true) blob ∧ ¬ s.FreedBy e.evicted blob := by
  have hmem : blob ∈ unit.blobs ↔ index ∈ s.referrers blob := by
    rw [hs.wellFormed.mem_referrers blob index, hu]
    simp
  have hcount := countP_update (hs.wellFormed.referrers_nodup blob) hnot
  rw [lastOf, List.mem_filter, hmem, h.remaining blob, decide_eq_true_iff]
  constructor
  · rintro ⟨hi, hzero⟩
    rw [if_pos hi, hzero, List.countP_eq_zero] at hcount
    refine ⟨⟨List.ne_nil_of_mem hi, fun i hi' => by simpa using hcount i hi'⟩, fun hf => ?_⟩
    rw [hf.2 index hi] at hnot
    cases hnot
  · rintro ⟨⟨hne, hall⟩, hnotFreed⟩
    have hi : index ∈ s.referrers blob := by
      by_contra hi
      refine hnotFreed ⟨hne, fun i hi' => ?_⟩
      have hother : i ≠ index := fun heq => hi (heq ▸ hi')
      rw [← hall i hi', Function.update_of_ne hother]
    rw [if_pos hi] at hcount
    refine ⟨hi, ?_⟩
    rw [← hcount, List.countP_eq_zero]
    intro i hi'
    simp [hall i hi']

/-- An eviction adds its unit to those evicted. -/
theorem evict_evicted (hs : s.Built) (e : Evictions) {index : Nat} (hlt : index < s.units.length) (i : Nat) :
    (evict s e index).evicted i = true ↔ e.evicted i = true ∨ i = index := by
  cases h : e.evicted index with
  | true =>
    rw [evict_of_evicted h]
    refine ⟨.inl, fun hor => hor.elim id ?_⟩
    rintro rfl
    exact h
  | false =>
    rw [evict_eq hs.wellFormed e (List.getElem?_eq_getElem hlt) h]
    by_cases heq : i = index
    · simp [heq]
    · simp [heq]

/-- The bytes of what a unit frees. -/
theorem Evictions.Exact.sum_lastOf (hs : s.Built) {e : Evictions} (h : e.Exact s now) {index : Nat} {unit : GcUnit}
    (hu : s.units[index]? = some unit) (hnot : e.evicted index = false) :
    s.bytesWhere (s.FreedBy (Function.update e.evicted index true)) =
      s.bytesWhere (s.FreedBy e.evicted) + ((lastOf e unit.blobs).map s.bytesOf).sum := by
  have hlast := h.mem_lastOf hs hu hnot
  have hnodup : (lastOf e unit.blobs).Nodup := (hs.wellFormed.blobs_nodup unit (List.mem_of_getElem? hu)).filter _
  rw [s.sum_bytesOf hnodup fun blob hb => hs.lt_length blob ((hlast blob).1 hb).1.1,
    ← s.bytesWhere_or fun blob _ hf hl => ((hlast blob).1 hl).2 hf]
  refine s.bytesWhere_congr fun blob _ => ?_
  rw [hlast blob]
  have hmono : s.FreedBy e.evicted blob → s.FreedBy (Function.update e.evicted index true) blob :=
    FreedBy.mono fun _ => evicted_update
  by_cases hf : s.FreedBy e.evicted blob
  · simp [hf, hmono hf]
  · simp [hf]

theorem Evictions.Exact.inv {e : Evictions} (h : e.Exact s now) : e.Inv s :=
  ⟨h.remaining, fun entry he => ((h.mem_freed entry.1).1 (List.mem_map_of_mem he)).2⟩

theorem Evictions.Exact.evict (hs : s.Built) {e : Evictions} (h : e.Exact s now) (index : Nat) :
    (evict s e index).Exact s now := by
  cases hnot : e.evicted index with
  | true => rwa [evict_of_evicted hnot]
  | false =>
    cases hu : s.units[index]? with
    | none =>
      rw [Plan.evict, if_neg (by simp [hnot]), hu]
      exact h
    | some unit =>
      have hnodup := hs.wellFormed.blobs_nodup unit (List.mem_of_getElem? hu)
      have hlast := h.mem_lastOf hs hu hnot
      have hremaining := (h.inv.evict hs.wellFormed index).remaining
      rw [evict_eq hs.wellFormed e hu hnot] at hremaining ⊢
      refine ⟨hremaining, fun blob => ?_, ?_, ?_⟩
      · simp only [List.map_append, List.map_map, List.mem_append, h.mem_freed blob]
        have hmap : (lastOf e unit.blobs).map ((·.1) ∘ fun blob => (blob, index)) = lastOf e unit.blobs := List.map_id _
        rw [hmap, hlast blob]
        by_cases hf : s.FreedBy e.evicted blob
        · exact iff_of_true (.inl hf) (hf.mono fun _ => evicted_update)
        · simp [hf]
      · simp only [List.map_append, List.map_map]
        have hmap : (lastOf e unit.blobs).map ((·.1) ∘ fun blob => (blob, index)) = lastOf e unit.blobs := List.map_id _
        rw [hmap]
        refine List.nodup_append.2 ⟨h.nodup_freed, hnodup.filter _, ?_⟩
        rintro blob hfreed other hother rfl
        exact ((hlast blob).1 hother).2 ((h.mem_freed blob).1 hfreed)
      · dsimp only
        rw [h.bytesAfter_eq, Snapshot.bytesAfter, Snapshot.bytesAfter, bytesWhere_selectedBy, bytesWhere_selectedBy,
          h.sum_lastOf hs hu hnot]
        omega

/-! ## Every state of the loops -/

theorem Reached.exact (hs : s.Built) {e : Evictions} (h : Reached s now e) : e.Exact s now := by
  induction h with
  | start => exact start_exact s now
  | evict _ index ih => exact ih.evict hs index

/-- No counter is decremented at zero: whichever unit is evicted next, and
however far its loop over its blobs has come. -/
theorem Reached.remaining_pos (hs : s.Built) {e : Evictions} (h : Reached s now e) {index : Nat} {unit : GcUnit}
    (hu : s.units[index]? = some unit) (hnot : e.evicted index = false) {before after : List Nat} {blob : Nat}
    (hblobs : unit.blobs = before ++ blob :: after) :
    0 < (before.foldl (release s unit.kind index)
      { e with evicted := Function.update e.evicted index true }).remaining blob := by
  have hnodup := hs.wellFormed.blobs_nodup unit (List.mem_of_getElem? hu)
  rw [hblobs] at hnodup
  have hfresh : blob ∉ before := fun hin =>
    (List.nodup_append.1 hnodup).2.2 blob hin blob List.mem_cons_self rfl
  have hi : index ∈ s.referrers blob := (hs.wellFormed.mem_referrers blob index).2 ⟨unit, hu, by simp [hblobs]⟩
  rw [foldl_release_eq s unit.kind index before _ (List.nodup_append.1 hnodup).1]
  simp only [hfresh, if_false]
  rw [(h.exact hs).remaining blob, List.countP_pos_iff]
  exact ⟨index, hi, by simp [hnot]⟩

/-! ## The order -/

section
variable (s : Snapshot) (options : GcOptions)

/-- Obsolete candidates first, then by last use, then by index. -/
theorem precedes_iff {a b : Nat} : s.precedes options a b = true ↔
    s.isObsolete options a = true ∧ s.isObsolete options b = false ∨
      s.isObsolete options a = s.isObsolete options b ∧
        (s.lastUsed a < s.lastUsed b ∨ s.lastUsed a = s.lastUsed b ∧ a ≤ b) := by
  unfold precedes
  cases s.isObsolete options a <;> cases s.isObsolete options b <;> simp <;> split <;> omega

theorem precedes_total (a b : Nat) : s.precedes options a b = true ∨ s.precedes options b a = true := by
  simp only [precedes_iff]
  cases s.isObsolete options a <;> cases s.isObsolete options b <;> simp <;> omega

theorem precedes_trans {a b c : Nat} (hab : s.precedes options a b = true) (hbc : s.precedes options b c = true) :
    s.precedes options a c = true := by
  rw [precedes_iff] at *
  rcases hab with ⟨ha, hb⟩ | ⟨hkind, hab⟩
  · rcases hbc with ⟨hb', -⟩ | ⟨hkind, -⟩
    · rw [hb] at hb'
      cases hb'
    · exact .inl ⟨ha, hkind ▸ hb⟩
  · rcases hbc with ⟨hb, hc⟩ | ⟨hkind', hbc⟩
    · exact .inl ⟨hkind.trans hb, hc⟩
    · exact .inr ⟨hkind.trans hkind', by omega⟩

instance : Std.Total fun a b => s.precedes options a b = true := ⟨precedes_total s options⟩

instance : IsTrans Nat fun a b => s.precedes options a b = true := ⟨fun _ _ _ => precedes_trans s options⟩

theorem pairwise_order : (s.order options).Pairwise fun a b => s.precedes options a b = true :=
  List.pairwise_insertionSort _ _

theorem mem_order {index : Nat} : index ∈ s.order options ↔ index < s.units.length := by
  rw [order, List.mem_insertionSort, List.mem_range]

theorem nodup_order : (s.order options).Nodup :=
  (List.perm_insertionSort _ _).nodup_iff.2 List.nodup_range

end

/-! ## Where the second loop stops -/

/-- Those evicted, and the units of a list. -/
def also (evicted : Nat → Bool) (units : List Nat) (index : Nat) : Bool := evicted index || decide (index ∈ units)

theorem also_eq_true {evicted : Nat → Bool} {units : List Nat} {index : Nat} :
    also evicted units index = true ↔ evicted index = true ∨ index ∈ units := by
  simp [also]

theorem foldl_evict (hs : s.Built) : ∀ (l : List Nat) (e : Evictions), (∀ index ∈ l, index < s.units.length) →
    (l.foldl (evict s) e).evicted = also e.evicted l
  | [], e, _ => by
    funext index
    simp [also]
  | index :: l, e, hl => by
    obtain ⟨hlt, hl⟩ := List.forall_mem_cons.1 hl
    rw [List.foldl_cons, foldl_evict hs l _ hl]
    funext i
    rw [Bool.eq_iff_iff, also_eq_true, also_eq_true, evict_evicted hs e hlt, List.mem_cons, or_assoc]

theorem Reached.foldl (l : List Nat) {e : Evictions} (h : Reached s now e) :
    Reached s now (l.foldl (Plan.evict s) e) := by
  induction l generalizing e with
  | nil => exact h
  | cons index l ih => exact ih (h.evict index)

/-- The loop over all units evicts a prefix of the order: it goes on at a unit
while the bytes do not fit or the unit is obsolete, and only then. -/
structure FitsAfter (s : Snapshot) (options : GcOptions) (now : Nat) (evicted : Nat → Bool) (n : Nat) : Prop where
  le_length : n ≤ (s.order options).length
  goes_on : ∀ j index, j < n → (s.order options)[j]? = some index →
    options.maxBytes < s.bytesAfter now (also evicted ((s.order options).take j)) ∨ s.isObsolete options index = true
  stops : ∀ index, (s.order options)[n]? = some index →
    s.bytesAfter now (also evicted ((s.order options).take n)) ≤ options.maxBytes ∧ s.isObsolete options index = false

theorem evictions_spec (hs : s.Built) (options : GcOptions) (now : Nat) :
    ∃ n, FitsAfter s options now (fitted s options now).evicted n ∧
      (evictions s options now).evicted = also (fitted s options now).evicted ((s.order options).take n) := by
  obtain ⟨n, hn, heq⟩ := Until.exists_stopsAt
    (fun e index => e.bytesAfter ≤ options.maxBytes && !s.isObsolete options index) (evict s) (s.order options)
    (fitted s options now)
  have hlt : ∀ j, ∀ index ∈ (s.order options).take j, index < s.units.length := fun j index hi =>
    (mem_order s options).1 (List.mem_of_mem_take hi)
  have hbytes : ∀ j, (((s.order options).take j).foldl (evict s) (fitted s options now)).bytesAfter =
      s.bytesAfter now (also (fitted s options now).evicted ((s.order options).take j)) := by
    intro j
    rw [(((reached_fitted s options now).foldl _).exact hs).bytesAfter_eq, foldl_evict hs _ _ (hlt j)]
  refine ⟨n, ⟨hn.le_length, fun j index hj hi => ?_, fun index hi => ?_⟩, ?_⟩
  · have hgo := hn.goes_on j index hj hi
    rw [hbytes j] at hgo
    by_cases hfit : s.bytesAfter now (also (fitted s options now).evicted ((s.order options).take j)) ≤ options.maxBytes
    · right
      simpa [hfit] using hgo
    · exact .inl (Nat.lt_of_not_le hfit)
  · have hstop := hn.stops index hi
    rw [hbytes n] at hstop
    simpa using hstop
  · rw [evictions, evictToFit_eq, heq, foldl_evict hs _ _ (hlt n)]

theorem FitsAfter.fits {options : GcOptions} {evicted : Nat → Bool} {n : Nat} (h : FitsAfter s options now evicted n) :
    s.bytesAfter now (also evicted ((s.order options).take n)) ≤ options.maxBytes ∨ n = (s.order options).length := by
  rcases Nat.lt_or_eq_of_le h.le_length with hlt | heq
  · exact .inl (h.stops _ (List.getElem?_eq_getElem hlt)).1
  · exact .inr heq

/-- Obsolete candidates come first, so none is behind the place where the loop
stops. -/
theorem FitsAfter.obsolete_mem {options : GcOptions} {evicted : Nat → Bool} {n : Nat}
    (h : FitsAfter s options now evicted n) {index : Nat} (hlt : index < s.units.length)
    (ho : s.isObsolete options index = true) : index ∈ (s.order options).take n := by
  obtain ⟨m, hm⟩ := List.getElem?_of_mem ((mem_order s options).2 hlt)
  obtain ⟨hmlt, hget⟩ := List.getElem?_eq_some_iff.1 hm
  by_contra hout
  have hle : n ≤ m := by
    by_contra hmn
    refine hout (List.mem_take_iff_getElem.2 ⟨m, by omega, hget⟩)
  have hnlt : n < (s.order options).length := by omega
  have hkept := (h.stops _ (List.getElem?_eq_getElem hnlt)).2
  rcases Nat.lt_or_eq_of_le hle with hnm | rfl
  · have hprec := List.pairwise_iff_getElem.1 (pairwise_order s options) n m hnlt hmlt hnm
    rw [hget, precedes_iff, hkept, ho] at hprec
    simp at hprec
  · rw [hget, ho] at hkept
    cases hkept

end Plan

end Bellows.Core
