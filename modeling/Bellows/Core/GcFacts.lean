/-
A plan deletes no blob that a record it keeps references.

The snapshot's references and referrers mirror each other (`WellFormed`), the
evictions count down exactly the referrers not yet evicted (`Inv`), and so a
blob is freed only when all of its referrers are gone.
-/
import Bellows.Core.Gc
import Bellows.Lib.Until

namespace Bellows.Core

/-! ## Counting down -/

/-- Taking one element out of what is counted takes one off the count. -/
theorem countP_update {l : List Nat} (hl : l.Nodup) {gone : Nat → Bool} {i : Nat} (hg : gone i = false) :
    l.countP (fun j => !Function.update gone i true j) =
      if i ∈ l then l.countP (fun j => !gone j) - 1 else l.countP (fun j => !gone j) := by
  have hcongr : ∀ l' : List Nat, i ∉ l' →
      l'.countP (fun j => !Function.update gone i true j) = l'.countP (fun j => !gone j) := fun l' hi => by
    refine List.countP_congr fun j hj => ?_
    have hne : j ≠ i := by rintro rfl; exact hi hj
    rw [Function.update_of_ne hne]
  split
  · next hi =>
    have hperm := List.perm_cons_erase hi
    rw [hperm.countP_eq, hperm.countP_eq, List.countP_cons, List.countP_cons, hcongr _ (hl.not_mem_erase)]
    simp [hg]
  · next hi => exact hcongr l hi

namespace Snapshot

/-- References and referrers mirror each other, each listed once. -/
structure WellFormed (s : Snapshot) : Prop where
  mem_referrers : ∀ blob index, index ∈ s.referrers blob ↔ ∃ unit, s.units[index]? = some unit ∧ blob ∈ unit.blobs
  referrers_nodup : ∀ blob, (s.referrers blob).Nodup
  blobs_nodup : ∀ unit ∈ s.units, unit.blobs.Nodup

theorem addReference_spec (blobs : List GcBlob) {seen : List Nat} (hn : seen.Nodup) (digest : Text) :
    (addReference blobs seen digest).Nodup ∧
      ∀ blob, blob ∈ addReference blobs seen digest ↔ blob ∈ seen ∨ byDigest blobs digest = some blob := by
  unfold addReference
  split
  · next b hb =>
    split
    · next hs =>
      refine ⟨hn, fun blob => ⟨.inl, fun h => h.elim id fun he => ?_⟩⟩
      rw [hb] at he
      exact Option.some.inj he ▸ hs
    · next hs =>
      refine ⟨List.nodup_append.2 ⟨hn, List.nodup_singleton _, fun a ha c hc => ?_⟩, fun blob => ?_⟩
      · rintro rfl
        exact hs (List.mem_singleton.1 hc ▸ ha)
      · rw [List.mem_append, List.mem_singleton, hb, Option.some.injEq, eq_comm (a := blob)]
  · next hb => exact ⟨hn, fun blob => by simp [hb]⟩

theorem foldl_addReference_spec (blobs : List GcBlob) : ∀ (digests : List Text) {seen : List Nat},
    seen.Nodup → (digests.foldl (addReference blobs) seen).Nodup ∧
      ∀ blob, blob ∈ digests.foldl (addReference blobs) seen ↔
        blob ∈ seen ∨ ∃ digest ∈ digests, byDigest blobs digest = some blob
  | [], seen, hn => ⟨hn, by simp⟩
  | digest :: digests, seen, hn => by
    have ⟨hn', hmem'⟩ := addReference_spec blobs hn digest
    have ⟨hn'', hmem''⟩ := foldl_addReference_spec blobs digests hn'
    refine ⟨hn'', fun blob => ?_⟩
    rw [List.foldl_cons, hmem'' blob, hmem' blob, List.exists_mem_cons_iff, or_assoc]

theorem references_nodup (blobs : List GcBlob) (digests : List Text) : (references blobs digests).Nodup :=
  (foldl_addReference_spec blobs digests List.nodup_nil).1

theorem mem_references {blobs : List GcBlob} {digests : List Text} {blob : Nat} :
    blob ∈ references blobs digests ↔ ∃ digest ∈ digests, byDigest blobs digest = some blob := by
  rw [references, (foldl_addReference_spec blobs digests List.nodup_nil).2 blob]
  simp

/-- A digest finds the blob that has it, if no other has. -/
theorem byDigest_eq_some {blobs : List GcBlob} (hn : (blobs.map (·.digest)).Nodup) {blob : Nat} {b : GcBlob}
    (hb : blobs[blob]? = some b) : byDigest blobs b.digest = some blob := by
  have hmem : (b, blob) ∈ blobs.zipIdx.filter fun entry => entry.1.digest == b.digest := by
    rw [List.mem_filter, List.mem_zipIdx_iff_getElem?]
    exact ⟨hb, beq_self_eq_true _⟩
  rw [byDigest, Option.map_eq_some_iff]
  cases hl : (blobs.zipIdx.filter fun entry => entry.1.digest == b.digest).getLast? with
  | none => rw [List.getLast?_eq_none_iff] at hl; rw [hl] at hmem; cases hmem
  | some last =>
    obtain ⟨hlast, hd⟩ := List.mem_filter.1 (List.mem_of_getLast? hl)
    rw [List.mem_zipIdx_iff_getElem?] at hlast
    refine ⟨last, rfl, ?_⟩
    have hget : ∀ (i : Nat) (x : GcBlob), blobs[i]? = some x → (blobs.map (·.digest))[i]? = some x.digest := fun i x hx => by
      rw [List.getElem?_map, hx, Option.map_some]
    have hlt : last.2 < (blobs.map (·.digest)).length := by
      obtain ⟨h, -⟩ := List.getElem?_eq_some_iff.1 (hget _ _ hlast)
      exact h
    refine (List.getElem?_inj hlt hn).1 ?_
    rw [hget _ _ hlast, hget _ _ hb, beq_iff_eq.1 hd]

/-! ## The snapshot of a pass -/

end Snapshot

/-- What names a candidate in its index. -/
def Record.identity : Record → Option (Text × Nat)
  | .candidate c => some (c.actionKey, c.createdMs)
  | _ => none

namespace Snapshot

/-- The units of a snapshot, each with the blobs its record references, in the
order of the records. -/
structure Represents (s : Snapshot) (records : List Scanned) : Prop where
  wellFormed : s.WellFormed
  length_eq : s.units.length = records.length
  unit_of : ∀ (index : Nat) (r : Scanned), records[index]? = some r →
    ∃ unit, s.units[index]? = some unit ∧ unit.path = r.path ∧
      unit.candidate = r.record.identity ∧
      ∀ blob, blob ∈ unit.blobs ↔ ∃ digest ∈ r.record.digests, byDigest s.blobs digest = some blob

theorem WellFormed.add {s : Snapshot} (h : s.WellFormed) (unit : GcUnit) (digests : List Text) :
    (s.add unit digests).WellFormed := by
  have hfresh : ∀ blob, s.units.length ∉ s.referrers blob := fun blob hm => by
    obtain ⟨u, hu, -⟩ := (h.mem_referrers blob _).1 hm
    rw [List.getElem?_eq_none (Nat.le_refl _)] at hu
    cases hu
  refine ⟨fun blob index => ?_, fun blob => ?_, fun u hu => ?_⟩
  · have hold : index ∈ s.referrers blob ↔ ∃ u, s.units[index]? = some u ∧ blob ∈ u.blobs := h.mem_referrers blob index
    have hmem : index ∈ (s.add unit digests).referrers blob ↔
        index ∈ s.referrers blob ∨ blob ∈ references s.blobs digests ∧ index = s.units.length := by
      simp only [Snapshot.add]
      split
      · next hb => simp [hb]
      · next hb => simp [hb]
    rw [hmem, hold]
    simp only [Snapshot.add]
    rcases Nat.lt_trichotomy index s.units.length with hlt | heq | hgt
    · rw [List.getElem?_append_left hlt]
      simp [Nat.ne_of_lt hlt]
    · subst heq
      simp
    · have hnone : ∀ u, (s.units ++ [u])[index]? = none := fun u =>
        List.getElem?_eq_none (by rw [List.length_append, List.length_singleton]; omega)
      rw [hnone, List.getElem?_eq_none (Nat.le_of_lt hgt)]
      simp [Nat.ne_of_gt hgt]
  · simp only [Snapshot.add]
    split
    · refine List.nodup_append.2 ⟨h.referrers_nodup blob, List.nodup_singleton _, fun a ha b hb => ?_⟩
      rintro rfl
      exact hfresh blob (List.mem_singleton.1 hb ▸ ha)
    · exact h.referrers_nodup blob
  · simp only [Snapshot.add, List.mem_append, List.mem_singleton] at hu
    rcases hu with hu | rfl
    · exact h.blobs_nodup u hu
    · exact references_nodup _ _

theorem Represents.add {s : Snapshot} {records : List Scanned} (h : s.Represents records) (uses : Uses)
    (r : Scanned) : (s.add (unitOf uses r) r.record.digests).Represents (records ++ [r]) := by
  refine ⟨h.wellFormed.add _ _, by simp [Snapshot.add, h.length_eq], fun index r' hr' => ?_⟩
  simp only [Snapshot.add]
  by_cases hlt : index < records.length
  · rw [List.getElem?_append_left hlt] at hr'
    rw [List.getElem?_append_left (h.length_eq ▸ hlt)]
    exact h.unit_of index r' hr'
  · obtain rfl : index = records.length := by
      obtain ⟨hi, -⟩ := List.getElem?_eq_some_iff.1 hr'
      simp only [List.length_append, List.length_cons, List.length_nil] at hi
      omega
    obtain rfl : r = r' := by simpa using hr'
    rw [← h.length_eq, List.getElem?_concat_length]
    refine ⟨_, rfl, ?_, ?_, fun blob => mem_references⟩
    · cases hr : r.record <;> simp [unitOf, hr]
    · cases hr : r.record <;> simp [unitOf, hr, Record.identity]

theorem foldl_add_represents (uses : Uses) : ∀ (records : List Scanned) {s : Snapshot} (before : List Scanned),
    s.Represents before →
      (records.foldl (fun s r => s.add (unitOf uses r) r.record.digests) s).Represents (before ++ records)
  | [], _, _, h => by simpa using h
  | r :: records, _, before, h => by
    have := foldl_add_represents uses records _ (h.add uses r)
    rwa [List.append_assoc, List.singleton_append] at this

theorem foldl_add_blobs (uses : Uses) : ∀ (records : List Scanned) (s : Snapshot),
    (records.foldl (fun s r => s.add (unitOf uses r) r.record.digests) s).blobs = s.blobs
  | [], _ => rfl
  | _ :: records, _ => (foldl_add_blobs uses records _).trans rfl

theorem read_represents (uses : Uses) (blobs : List GcBlob) (records : List Scanned) (startedMs : Nat) :
    (read uses blobs records startedMs).Represents records :=
  foldl_add_represents uses records []
    ⟨⟨by simp, by simp, by simp⟩, rfl, by simp⟩

@[simp] theorem read_blobs (uses : Uses) (blobs : List GcBlob) (records : List Scanned) (startedMs : Nat) :
    (read uses blobs records startedMs).blobs = blobs :=
  foldl_add_blobs uses records _

end Snapshot

/-! ## The plan -/

namespace Plan

/-- The blobs of which the unit is the last referrer. -/
def lastOf (e : Evictions) (blobs : List Nat) : List Nat := blobs.filter fun blob => e.remaining blob - 1 = 0

/-- What evicting a unit changes, in one step. -/
theorem foldl_release_eq (s : Snapshot) (kind : Kind) (index : Nat) : ∀ (blobs : List Nat) (e : Evictions),
    blobs.Nodup → blobs.foldl (release s kind index) e =
      { evicted := e.evicted
        remaining := fun blob => if blob ∈ blobs then e.remaining blob - 1 else e.remaining blob
        freed := e.freed ++ (lastOf e blobs).map fun blob => (blob, index)
        bytesAfter := e.bytesAfter - ((lastOf e blobs).map s.bytesOf).sum
        executableBytes := if kind = .executable then e.executableBytes - ((lastOf e blobs).map s.bytesOf).sum
          else e.executableBytes }
  | [], e, _ => by simp [lastOf]
  | b :: blobs, e, hn => by
    obtain ⟨hb, hn⟩ := List.nodup_cons.1 hn
    have hremaining : (release s kind index e b).remaining = Function.update e.remaining b (e.remaining b - 1) := by
      unfold release
      dsimp only
      split <;> rfl
    have hlast : lastOf (release s kind index e b) blobs = lastOf e blobs := by
      refine List.filter_congr fun blob hblob => ?_
      have hne : blob ≠ b := fun heq => hb (heq ▸ hblob)
      rw [hremaining, Function.update_of_ne hne]
    rw [List.foldl_cons, foldl_release_eq s kind index blobs _ hn, hlast, hremaining]
    have hcounts : (fun blob => if blob ∈ blobs then Function.update e.remaining b (e.remaining b - 1) blob - 1
        else Function.update e.remaining b (e.remaining b - 1) blob) =
        fun blob => if blob ∈ b :: blobs then e.remaining blob - 1 else e.remaining blob := by
      funext blob
      by_cases heq : blob = b
      · subst heq
        simp [hb]
      · simp [heq]
    rw [hcounts]
    by_cases hz : e.remaining b - 1 = 0
    · have hcons : lastOf e (b :: blobs) = b :: lastOf e blobs := List.filter_cons_of_pos (by simpa using hz)
      simp only [release, Function.update_self, hz, if_true, hcons, List.map_cons, List.sum_cons, List.append_assoc,
        List.singleton_append, Nat.sub_sub]
      split
      · rw [Nat.sub_sub]
      · rfl
    · have hcons : lastOf e (b :: blobs) = lastOf e blobs := List.filter_cons_of_neg (by simpa using hz)
      simp only [release, Function.update_self, hz, if_false, hcons]

theorem evict_of_evicted {s : Snapshot} {e : Evictions} {index : Nat} (h : e.evicted index = true) : evict s e index = e := by
  rw [evict, if_pos h]

theorem evict_eq {s : Snapshot} (hs : s.WellFormed) (e : Evictions) {index : Nat} {unit : GcUnit} (hu : s.units[index]? = some unit)
    (hnot : e.evicted index = false) : evict s e index =
      { evicted := Function.update e.evicted index true
        remaining := fun blob => if blob ∈ unit.blobs then e.remaining blob - 1 else e.remaining blob
        freed := e.freed ++ (lastOf e unit.blobs).map fun blob => (blob, index)
        bytesAfter := e.bytesAfter - ((lastOf e unit.blobs).map s.bytesOf).sum
        executableBytes := if unit.kind = .executable
          then e.executableBytes - ((lastOf e unit.blobs).map s.bytesOf).sum else e.executableBytes } := by
  rw [evict, if_neg (by simp [hnot]), hu]
  exact foldl_release_eq s unit.kind index unit.blobs _ (hs.blobs_nodup unit (List.mem_of_getElem? hu))

/-- The evictions so far: what remains of each blob is its referrers not yet
evicted, and a freed blob has none left. -/
structure Evictions.Inv (s : Snapshot) (e : Evictions) : Prop where
  remaining : ∀ blob, e.remaining blob = (s.referrers blob).countP fun index => !e.evicted index
  freed : ∀ entry ∈ e.freed, ∀ index ∈ s.referrers entry.1, e.evicted index = true

theorem start_inv (s : Snapshot) (now : Nat) : (start s now).Inv s :=
  ⟨fun blob => by simp [start], by simp [start]⟩

theorem Evictions.Inv.evict {s : Snapshot} (hs : s.WellFormed) {e : Evictions} (h : e.Inv s) (index : Nat) :
    (evict s e index).Inv s := by
  cases hnot : e.evicted index with
  | true => rwa [evict_of_evicted hnot]
  | false =>
    cases hu : s.units[index]? with
    | none =>
      rw [Plan.evict, if_neg (by simp [hnot]), hu]
      exact h
    | some unit =>
      have hmem : ∀ blob, blob ∈ unit.blobs ↔ index ∈ s.referrers blob := by
        intro blob
        rw [hs.mem_referrers blob index, hu]
        simp
      have hcount : ∀ blob, (s.referrers blob).countP (fun i => !Function.update e.evicted index true i) =
          if blob ∈ unit.blobs then e.remaining blob - 1 else e.remaining blob := by
        intro blob
        rw [countP_update (hs.referrers_nodup blob) hnot, h.remaining blob]
        simp only [hmem blob]
      rw [evict_eq hs e hu hnot]
      refine ⟨fun blob => (hcount blob).symm, fun entry he i hi => ?_⟩
      rcases List.mem_append.1 he with he | he
      · by_cases heq : i = index
        · simp [heq]
        · exact (Function.update_of_ne heq _ _).trans (h.freed entry he i hi)
      · obtain ⟨blob, hblob, rfl⟩ := List.mem_map.1 he
        obtain ⟨hm, hz⟩ := List.mem_filter.1 hblob
        -- the count is zero: none of the referrers is left
        have hzero := hcount blob
        rw [if_pos hm, of_decide_eq_true hz, List.countP_eq_zero] at hzero
        simpa using hzero i hi

/-! ### Every state of the loops -/

/-- The states that evictions lead to. -/
inductive Reached (s : Snapshot) (now : Nat) : Evictions → Prop where
  | start : Reached s now (start s now)
  | evict {e : Evictions} (h : Reached s now e) (index : Nat) : Reached s now (evict s e index)

theorem Reached.inv {s : Snapshot} {now : Nat} (hs : s.WellFormed) {e : Evictions} (h : Reached s now e) : e.Inv s := by
  induction h with
  | start => exact start_inv s now
  | evict _ index ih => exact ih.evict hs index

theorem evictExecutables_eq (s : Snapshot) (budget : Nat) : ∀ (order : List Nat) (e : Evictions),
    evictExecutables s budget order e = Until.foldUntil (fun e _ => e.executableBytes ≤ budget)
      (fun e index => if s.isExecutable index then evict s e index else e) order e
  | [], _ => rfl
  | index :: order, e => by
    rw [evictExecutables, Until.foldUntil, evictExecutables_eq s budget order]
    simp only [decide_eq_true_iff]

theorem evictToFit_eq (s : Snapshot) (options : GcOptions) : ∀ (order : List Nat) (e : Evictions),
    evictToFit s options order e = Until.foldUntil
      (fun e index => e.bytesAfter ≤ options.maxBytes && !s.isObsolete options index) (evict s) order e
  | [], _ => rfl
  | index :: order, e => by rw [evictToFit, Until.foldUntil, evictToFit_eq s options order]

theorem reached_fitted (s : Snapshot) (options : GcOptions) (now : Nat) : Reached s now (fitted s options now) := by
  unfold fitted
  split
  · exact .start
  · rw [evictExecutables_eq]
    refine Until.foldUntil_keeps (fun e index h => ?_) _ .start
    split
    · exact h.evict index
    · exact h

theorem reached_evictions (s : Snapshot) (options : GcOptions) (now : Nat) :
    Reached s now (evictions s options now) := by
  rw [evictions, evictToFit_eq]
  exact Until.foldUntil_keeps (fun e index h => h.evict index) _ (reached_fitted s options now)

/-- **A selected blob has no referrer left.** -/
theorem selected_sound {s : Snapshot} (hs : s.WellFormed) (options : GcOptions) (now : Nat) {blob : Nat}
    (h : blob ∈ (new s options now).selected) : ∀ index ∈ s.referrers blob, (new s options now).evicted index = true := by
  intro index hi
  rcases List.mem_append.1 h with h | h
  · obtain ⟨entry, he, rfl⟩ := List.mem_map.1 h
    exact ((reached_evictions s options now).inv hs).freed entry he index hi
  · have hempty := (List.mem_filter.1 (List.mem_filter.1 h).1).2
    rw [List.isEmpty_iff.1 hempty] at hi
    cases hi

/-- **The plan keeps what a kept record references**: no blob with one of its
digests is selected. -/
theorem not_selected_of_kept {s : Snapshot} {records : List Scanned} (hs : s.Represents records)
    (hn : (s.blobs.map (·.digest)).Nodup) (options : GcOptions) (now : Nat) {index : Nat} {r : Scanned}
    (hr : records[index]? = some r) (hkept : (new s options now).evicted index = false) {blob : Nat} {b : GcBlob}
    (hb : s.blobs[blob]? = some b) (hd : b.digest ∈ r.record.digests) :
    blob ∉ (new s options now).selected := by
  intro hsel
  obtain ⟨unit, hu, -, -, hblobs⟩ := hs.unit_of index r hr
  have hm : blob ∈ unit.blobs := (hblobs blob).2 ⟨b.digest, hd, Snapshot.byDigest_eq_some hn hb⟩
  have := selected_sound hs.wellFormed options now hsel index ((hs.wellFormed.mem_referrers blob index).2 ⟨unit, hu, hm⟩)
  rw [hkept] at this
  cases this

end Plan

end Bellows.Core
