/-
A report and its breakdown (`Plan::report`, `buckets`): the totals, and the
same things told by what a unit's label is in each of a few groupings.

The totals and each grouping are added up in passes of their own, over units,
referrers and freed blobs. That they agree is sums over one set put together
from its parts: each unit has one label, each freed blob one last referrer.
Bytes are `u64`s that wrap in a release build.
-/
import Mathlib.Data.List.Lex
import Mathlib.Data.String.Basic
import Bellows.Collect.Collection
import Bellows.Core.PlanSpec
import Bellows.Lib.Grouping

namespace Bellows.Collect

open Bellows.Core Grouping

def TOP_CRATES : Nat := 15

def DAY_MS : Nat := 24 * 60 * 60 * 1000

structure GcBucket where
  group : Text
  label : Text
  records : Nat := 0
  /-- Bytes referenced only by records with this label. -/
  exclusiveBytes : Nat := 0
  evictedRecords : Nat := 0
  evictedBytes : Nat := 0
  deriving DecidableEq, Repr

/-- `+=` of a `u64` in a release build. -/
def wrappingAdd (a b : Nat) : Nat := (a + b) % 2 ^ 64

/-! ## One grouping -/

section Buckets

variable (plan : Plan) (s : Snapshot) (group : Text) (label : GcUnit → Text)

def labelAt (index : Nat) : Text := (s.units[index]?.map label).getD []

def countRecord (evicted : Bool) (bucket : GcBucket) : GcBucket :=
  { bucket with
    records := bucket.records + 1
    evictedRecords := if evicted then bucket.evictedRecords + 1 else bucket.evictedRecords }

def addExclusive (bytes : Nat) (bucket : GcBucket) : GcBucket :=
  { bucket with exclusiveBytes := wrappingAdd bucket.exclusiveBytes bytes }

def addEvicted (bytes : Nat) (bucket : GcBucket) : GcBucket :=
  { bucket with evictedBytes := wrappingAdd bucket.evictedBytes bytes }

/-- The label of all that reference a blob, if they have one and the same. -/
def exclusiveTo (blob : Nat) : Option Text :=
  match s.referrers blob with
  | [] => none
  | first :: rest =>
    if (first :: rest).all fun index => labelAt s label index == labelAt s label first then
      some (labelAt s label first)
    else none

/-- The three loops of `buckets`. -/
def tallied : Assoc Text GcBucket :=
  let buckets := (List.range s.units.length).foldl (fun buckets index =>
    upsert buckets (labelAt s label index) { group := group, label := labelAt s label index }
      (countRecord (plan.evicted index))) ∅
  let buckets := (List.range s.blobs.length).foldl (fun buckets blob =>
    modify? buckets (exclusiveTo s label blob) (addExclusive (s.bytesOf blob))) buckets
  plan.freed.foldl (fun buckets freed =>
    modify buckets (labelAt s label freed.2) (addEvicted (s.bytesOf freed.1))) buckets

/-- `buckets`, in the order of their labels. -/
def buckets : List GcBucket :=
  ((tallied plan s group label).entries.insertionSort fun a b => a.1 ≤ b.1).map fun entry => entry.2

end Buckets

/-! ## The report -/

def protocolLabel (unit : GcUnit) : Text :=
  match unit.protocol with
  | some protocol => "protocol ".toList ++ Nat.toDigits 10 protocol
  | none => "unversioned".toList

/-- `Kind::label` -/
def kindLabel : Kind → Text
  | .library => "library".toList
  | .executable => "executable".toList
  | .linked => "linked output".toList
  | .buildScript => "build-script run".toList
  | .declared => "declared action".toList
  | .archive => "archive".toList

def scopeLabel (unit : GcUnit) : Text :=
  if unit.pinned then "pinned to a checkout".toList else "shareable".toList

def age (nowMs : Nat) (unit : GcUnit) : Text :=
  let days := (nowMs - unit.lastUsedMs) / DAY_MS
  if days = 0 then "used within 1 day".toList
  else if days ≤ 2 then "used 1-3 days ago".toList
  else if days ≤ 6 then "used 3-7 days ago".toList
  else "used over 7 days ago".toList

/-- The groupings that are reported whole. -/
def groupings (nowMs : Nat) : List (Text × (GcUnit → Text)) :=
  [("protocol".toList, protocolLabel), ("kind".toList, fun unit => kindLabel unit.kind), ("scope".toList, scopeLabel),
    ("last use".toList, age nowMs)]

/-- The order of the crates: more evicted bytes first, and of as many, more bytes of its own. -/
def moreBytes (a b : GcBucket) : Prop :=
  b.evictedBytes < a.evictedBytes ∨ b.evictedBytes = a.evictedBytes ∧ b.exclusiveBytes ≤ a.exclusiveBytes

instance : DecidableRel moreBytes := fun _ _ => inferInstanceAs (Decidable (_ ∨ _))

structure FullReport extends GcReport where
  breakdown : List GcBucket

section Report

variable (plan : Plan) (s : Snapshot) (options : GcOptions)

def breakdown : List GcBucket :=
  (groupings s.startedMs).flatMap (fun grouping => buckets plan s grouping.1 grouping.2) ++
    ((buckets plan s "crate".toList (·.crateName)).insertionSort moreBytes).take TOP_CRATES

/-- `Plan::report`, but for the duration. -/
def fullReport : FullReport where
  toGcReport := planReport plan s options
  breakdown := breakdown plan s

/-- The buckets of one grouping in a report. -/
def FullReport.bucketsOf (report : FullReport) (group : Text) : List GcBucket :=
  report.breakdown.filter fun bucket => bucket.group = group

end Report

/-! ## What a bucket holds -/

section Tally

variable (plan : Plan) (s : Snapshot) (group : Text) (label : GcUnit → Text)

/-- The units with a label. -/
def labelled (k : Text) : List Nat := (List.range s.units.length).filter fun index => labelAt s label index = k

/-- The blobs that only units with a label reference. -/
def exclusive (k : Text) : List Nat := (List.range s.blobs.length).filter fun blob => exclusiveTo s label blob = some k

/-- The blobs freed last by a unit with a label. -/
def freedLast (k : Text) : List (Nat × Nat) := plan.freed.filter fun freed => labelAt s label freed.2 = k

def bucketOf (k : Text) : GcBucket where
  group := group
  label := k
  records := (labelled s label k).length
  exclusiveBytes := wrappingSum ((exclusive s label k).map s.bytesOf)
  evictedRecords := ((labelled s label k).filter plan.evicted).length
  evictedBytes := wrappingSum ((freedLast plan s label k).map fun freed => s.bytesOf freed.1)

theorem foldl_countRecord (evicted : Nat → Bool) (indexes : List Nat) (bucket : GcBucket) :
    indexes.foldl (fun bucket index => countRecord (evicted index) bucket) bucket =
      { bucket with
        records := bucket.records + indexes.length
        evictedRecords := bucket.evictedRecords + (indexes.filter evicted).length } := by
  induction indexes generalizing bucket with
  | nil => rfl
  | cons index indexes ih =>
    rw [List.foldl_cons, ih]
    cases h : evicted index <;> simp [countRecord, h] <;> omega

/-- A total that a bucket holds (`get`, `put`) as the bytes are added to it one after another. -/
theorem foldl_wrappingAdd {ι : Type} (get : GcBucket → Nat) (put : Nat → GcBucket → GcBucket)
    (hself : ∀ bucket, put (get bucket) bucket = bucket) (hget : ∀ n bucket, get (put n bucket) = n)
    (hput : ∀ n n' bucket, put n (put n' bucket) = put n bucket) (bytes : ι → Nat) (items : List ι)
    {bucket : GcBucket} (h : get bucket < 2 ^ 64) :
    items.foldl (fun bucket i => put (wrappingAdd (get bucket) (bytes i)) bucket) bucket =
      put (wrappingSum (get bucket :: items.map bytes)) bucket := by
  induction items generalizing bucket with
  | nil => rw [List.foldl_nil, List.map_nil, wrappingSum, List.sum_singleton, Nat.mod_eq_of_lt h, hself]
  | cons i items ih =>
    have hlt : get (put (wrappingAdd (get bucket) (bytes i)) bucket) < 2 ^ 64 := by
      rw [hget]
      exact Nat.mod_lt _ (by decide)
    rw [List.foldl_cons, ih hlt, hput, hget]
    simp [wrappingAdd, wrappingSum, Nat.add_assoc]

theorem foldl_addExclusive {ι : Type} (bytes : ι → Nat) (items : List ι) {bucket : GcBucket}
    (h : bucket.exclusiveBytes < 2 ^ 64) :
    items.foldl (fun bucket i => addExclusive (bytes i) bucket) bucket =
      { bucket with exclusiveBytes := wrappingSum (bucket.exclusiveBytes :: items.map bytes) } :=
  foldl_wrappingAdd (·.exclusiveBytes) (fun n bucket => { bucket with exclusiveBytes := n }) (fun _ => rfl)
    (fun _ _ => rfl) (fun _ _ _ => rfl) bytes items h

theorem foldl_addEvicted {ι : Type} (bytes : ι → Nat) (items : List ι) {bucket : GcBucket}
    (h : bucket.evictedBytes < 2 ^ 64) :
    items.foldl (fun bucket i => addEvicted (bytes i) bucket) bucket =
      { bucket with evictedBytes := wrappingSum (bucket.evictedBytes :: items.map bytes) } :=
  foldl_wrappingAdd (·.evictedBytes) (fun n bucket => { bucket with evictedBytes := n }) (fun _ => rfl)
    (fun _ _ => rfl) (fun _ _ _ => rfl) bytes items h

theorem lookup_tallied (k : Text) : (tallied plan s group label).lookup k =
    if labelled s label k = [] then none else some (bucketOf plan s group label k) := by
  have hexclusive := lookup_foldl_modify (exclusiveTo s label) fun blob => addExclusive (s.bytesOf blob)
  have hrecords := lookup_foldl_upsert (labelAt s label) (fun k => { group := group, label := k : GcBucket })
    fun index => countRecord (plan.evicted index)
  have hevicted : ∀ m : Assoc Text GcBucket, (plan.freed.foldl (fun m freed =>
      modify m (labelAt s label freed.2) (addEvicted (s.bytesOf freed.1))) m).lookup k = (m.lookup k).map fun bucket =>
        (freedLast plan s label k).foldl (fun bucket freed => addEvicted (s.bytesOf freed.1) bucket) bucket := by
    intro m
    have hmodify := lookup_foldl_modify (fun freed : Nat × Nat => some (labelAt s label freed.2))
      (fun freed => addEvicted (s.bytesOf freed.1)) plan.freed m k
    simp only [Option.some.injEq] at hmodify
    exact hmodify
  rw [tallied, hevicted, hexclusive, hrecords]
  simp only [bucketOf, labelled, exclusive]
  by_cases hk : ((List.range s.units.length).filter fun index => labelAt s label index = k) = []
  · simp [hk]
  · simp only [hk, if_false, AList.lookup_empty, Option.getD_none, Option.map_some, foldl_countRecord]
    rw [foldl_addExclusive _ _ (Nat.two_pow_pos 64), foldl_addEvicted _ _ (Nat.two_pow_pos 64)]
    simp [wrappingSum]

theorem mem_keys_tallied (k : Text) :
    k ∈ (tallied plan s group label).keys.toFinset ↔ ∃ index < s.units.length, labelAt s label index = k := by
  rw [mem_keys_iff, lookup_tallied]
  split
  · next hnil =>
    rw [labelled, List.filter_eq_nil_iff] at hnil
    simp only [List.mem_range, decide_eq_true_eq] at hnil
    simpa using hnil
  · next hne =>
    obtain ⟨index, hmem⟩ := List.exists_mem_of_ne_nil _ hne
    rw [labelled, List.mem_filter, List.mem_range, decide_eq_true_iff] at hmem
    exact iff_of_true rfl ⟨index, hmem⟩

/-- The buckets are those of the labels there are. -/
theorem mem_buckets {bucket : GcBucket} (h : bucket ∈ buckets plan s group label) :
    bucket = bucketOf plan s group label bucket.label := by
  obtain ⟨⟨k, value⟩, hentry, rfl⟩ := List.mem_map.1 h
  rw [List.mem_insertionSort] at hentry
  have hlookup := Assoc.mem_entries_iff.1 hentry
  rw [lookup_tallied] at hlookup
  split at hlookup
  · cases hlookup
  · obtain rfl := Option.some.inj hlookup
    rfl

/-- A sum over the buckets is one over the labels. -/
theorem sum_buckets (w : GcBucket → Nat) : ((buckets plan s group label).map w).sum =
    ∑ k ∈ (tallied plan s group label).keys.toFinset, w (bucketOf plan s group label k) := by
  have hperm : ((buckets plan s group label).map w).sum =
      ((tallied plan s group label).entries.map fun entry => w entry.2).sum := by
    rw [buckets, List.map_map]
    exact ((List.perm_insertionSort _ _).map _).sum_eq
  rw [hperm, sum_entries]
  refine Finset.sum_congr rfl fun k hk => ?_
  rw [mem_keys_iff, lookup_tallied] at hk
  rw [lookup_tallied]
  split at hk
  · cases hk
  · next hne => simp [hne]

end Tally

/-! ## What deleting a label frees -/

section Bytes

variable {s : Snapshot} {label : GcUnit → Text}

theorem exclusiveTo_iff (blob : Nat) (k : Text) :
    exclusiveTo s label blob = some k ↔ s.FreedBy (fun index => decide (labelAt s label index = k)) blob := by
  unfold exclusiveTo Snapshot.FreedBy
  cases s.referrers blob with
  | nil => simp
  | cons first rest =>
    simp only [List.all_eq_true, beq_iff_eq, Option.ite_none_right_eq_some, Option.some.injEq, ne_eq, reduceCtorEq,
      not_false_eq_true, true_and, decide_eq_true_eq]
    constructor
    · rintro ⟨hall, rfl⟩
      exact hall
    · intro hall
      have hfirst := hall first List.mem_cons_self
      exact ⟨fun index hindex => (hall index hindex).trans hfirst.symm, hfirst⟩

/-- A bucket's blobs are those that are left without a referrer when its units go. -/
theorem sum_exclusive (k : Text) : ((exclusive s label k).map s.bytesOf).sum =
    s.bytesWhere (s.FreedBy fun index => decide (labelAt s label index = k)) := by
  rw [exclusive, s.sum_bytesOf (List.nodup_range.filter _) fun blob hb => List.mem_range.1 (List.mem_filter.1 hb).1]
  refine s.bytesWhere_congr fun blob hlt => ?_
  rw [List.mem_filter, decide_eq_true_iff, exclusiveTo_iff, List.mem_range, and_iff_right hlt]

variable (hs : s.Built) (options : GcOptions) (now : Nat)

theorem bytesWhere_le (p : Nat → Prop) [DecidablePred p] : s.bytesWhere p ≤ (s.blobs.map (·.bytes)).sum :=
  s.bytesWhere_add_not p ▸ Nat.le_add_right _ _

include hs

/-- Each blob that is freed counts once. -/
theorem sum_freed : ((Plan.new s options now).freed.map fun freed => s.bytesOf freed.1).sum =
    s.bytesWhere (s.FreedBy (Plan.new s options now).evicted) := by
  have hexact := (Plan.reached_evictions s options now).exact hs
  have hlt : ∀ blob ∈ (Plan.new s options now).freed.map (·.1), blob < s.blobs.length := fun blob hb =>
    hs.lt_length blob ((hexact.mem_freed blob).1 hb).1
  have hmap : (Plan.new s options now).freed.map (fun freed => s.bytesOf freed.1) =
      ((Plan.new s options now).freed.map (·.1)).map s.bytesOf := by
    rw [List.map_map]
    rfl
  have hnodup : ((Plan.new s options now).freed.map (·.1)).Nodup := hexact.nodup_freed
  rw [hmap, s.sum_bytesOf hnodup hlt]
  exact s.bytesWhere_congr fun blob _ => hexact.mem_freed blob

/-- What is freed is so by a unit of the snapshot. -/
theorem freed_lt {e : Plan.Evictions} (h : Plan.Reached s now e) : ∀ freed ∈ e.freed, freed.2 < s.units.length := by
  induction h with
  | start => simp [Plan.start]
  | @evict e _ index ih =>
    cases hevicted : e.evicted index with
    | true => rwa [Plan.evict_of_evicted hevicted]
    | false =>
      cases hu : s.units[index]? with
      | none =>
        have hsame : (Plan.evict s e index).freed = e.freed := by
          simp [Plan.evict, hu]
        rwa [hsame]
      | some unit =>
        rw [Plan.evict_eq hs.wellFormed e hu hevicted]
        intro freed hfreed
        rcases List.mem_append.1 hfreed with hfreed | hfreed
        · exact ih freed hfreed
        · obtain ⟨blob, -, rfl⟩ := List.mem_map.1 hfreed
          exact (List.getElem?_eq_some_iff.1 hu).1

end Bytes

/-! ## The sums of a report -/

structure RecordsAddUp (report : FullReport) (group : Text) : Prop where
  records : ((report.bucketsOf group).map (·.records)).sum = report.records
  evictedRecords : ((report.bucketsOf group).map (·.evictedRecords)).sum = report.recordsEvicted

structure BytesAddUp (s : Snapshot) (report : FullReport) (group : Text) (label : GcUnit → Text) : Prop where
  evictedBytes : ((report.bucketsOf group).map (·.evictedBytes)).sum = report.evictedBytes
  /-- The bytes of the blobs that deleting all units of the label leaves without a referrer. -/
  exclusiveBytes : ∀ bucket ∈ report.bucketsOf group,
    bucket.exclusiveBytes = s.bytesWhere (s.FreedBy fun index => decide (labelAt s label index = bucket.label))

theorem filter_buckets (plan : Plan) (s : Snapshot) (group other : Text) (label : GcUnit → Text) :
    ((buckets plan s other label).filter fun bucket => bucket.group = group) =
      if other = group then buckets plan s other label else [] := by
  have hgroup : ∀ bucket ∈ buckets plan s other label, bucket.group = other := fun bucket h =>
    congrArg GcBucket.group (mem_buckets plan s other label h)
  split
  · next heq => exact List.filter_eq_self.2 fun bucket h => by simp [hgroup bucket h, heq]
  · next hne => exact List.filter_eq_nil_iff.2 fun bucket h => by simp [hgroup bucket h, hne]

/-- The crates are no buckets of another grouping. -/
theorem filter_crates (plan : Plan) (s : Snapshot) {group : Text} (h : "crate".toList ≠ group) (n : Nat) :
    ((((buckets plan s "crate".toList (·.crateName)).insertionSort moreBytes).take n).filter
      fun bucket => bucket.group = group) = [] := by
  refine List.filter_eq_nil_iff.2 fun bucket hbucket => ?_
  have hmem := (List.mem_insertionSort moreBytes).1 (List.mem_of_mem_take hbucket)
  have hgroup := congrArg GcBucket.group (mem_buckets plan s _ _ hmem)
  simp only [hgroup, decide_eq_true_eq]
  exact h

theorem filter_flatMap_buckets (plan : Plan) (s : Snapshot) (group : Text) : ∀ gs : List (Text × (GcUnit → Text)),
    group ∉ gs.map (·.1) →
      ((gs.flatMap fun g => buckets plan s g.1 g.2).filter fun bucket => bucket.group = group) = []
  | [], _ => rfl
  | g :: gs, h => by
    simp only [List.map_cons, List.mem_cons, not_or] at h
    rw [List.flatMap_cons, List.filter_append, filter_buckets, if_neg (Ne.symm h.1), List.nil_append,
      filter_flatMap_buckets plan s group gs h.2]

theorem filter_grouping (plan : Plan) (s : Snapshot) {grouping : Text × (GcUnit → Text)} :
    ∀ {gs : List (Text × (GcUnit → Text))}, (gs.map (·.1)).Nodup → grouping ∈ gs →
      ((gs.flatMap fun g => buckets plan s g.1 g.2).filter fun bucket => bucket.group = grouping.1) =
        buckets plan s grouping.1 grouping.2
  | g :: gs, hn, h => by
    obtain ⟨hg, hn⟩ := List.nodup_cons.1 hn
    rw [List.flatMap_cons, List.filter_append, filter_buckets]
    rcases List.mem_cons.1 h with rfl | h
    · rw [if_pos rfl, filter_flatMap_buckets plan s _ gs hg, List.append_nil]
    · have hne : g.1 ≠ grouping.1 := by
        intro heq
        have hmem : grouping.1 ∈ gs.map (·.1) := List.mem_map_of_mem h
        rw [← heq] at hmem
        exact hg hmem
      rw [if_neg hne, List.nil_append, filter_grouping plan s hn h]

theorem groupings_names (nowMs : Nat) :
    (groupings nowMs).map (·.1) = ["protocol".toList, "kind".toList, "scope".toList, "last use".toList] := rfl

theorem bucketsOf_fullReport (plan : Plan) (s : Snapshot) (options : GcOptions) {grouping : Text × (GcUnit → Text)}
    (h : grouping ∈ groupings s.startedMs) :
    (fullReport plan s options).bucketsOf grouping.1 = buckets plan s grouping.1 grouping.2 := by
  have hnodup : ((groupings s.startedMs).map (·.1)).Nodup := by
    rw [groupings_names]
    decide
  have hcrate : "crate".toList ≠ grouping.1 := by
    have hname := List.mem_map_of_mem (f := Prod.fst) h
    intro heq
    rw [← heq] at hname
    revert hname
    rw [groupings_names]
    decide
  have hbreakdown : (fullReport plan s options).breakdown = breakdown plan s := rfl
  rw [FullReport.bucketsOf, hbreakdown, breakdown, List.filter_append, filter_crates plan s hcrate, List.append_nil,
    filter_grouping plan s hnodup h]

variable (s : Snapshot) (options : GcOptions) (now : Nat)

theorem recordsAddUp (plan : Plan) {grouping : Text × (GcUnit → Text)} (h : grouping ∈ groupings s.startedMs) :
    RecordsAddUp (fullReport plan s options) grouping.1 := by
  obtain ⟨group, label⟩ := grouping
  have hkeys : ∀ (p : Nat → Bool), ∀ index ∈ (List.range s.units.length).filter p,
      labelAt s label index ∈ (tallied plan s group label).keys.toFinset := fun p index hi =>
    (mem_keys_tallied plan s group label _).2 ⟨index, List.mem_range.1 (List.mem_filter.1 hi).1, rfl⟩
  constructor
  · rw [bucketsOf_fullReport plan s options h, sum_buckets]
    have hsum := sum_groups _ (labelAt s label) (fun _ => 1) (hkeys fun _ => true)
    simpa [bucketOf, labelled, fullReport, planReport] using hsum
  · rw [bucketsOf_fullReport plan s options h, sum_buckets]
    have hsum := sum_groups _ (labelAt s label) (fun _ => 1) (hkeys plan.evicted)
    simpa [bucketOf, labelled, fullReport, planReport, Bool.and_comm] using hsum

variable {s}

theorem wrappingSum_of_lt {l : List Nat} (h : l.sum < 2 ^ 64) : wrappingSum l = l.sum := Nat.mod_eq_of_lt h

theorem bytesAddUp (hs : s.Built) (hfits : (s.blobs.map (·.bytes)).sum < 2 ^ 64) {grouping : Text × (GcUnit → Text)}
    (h : grouping ∈ groupings s.startedMs) :
    BytesAddUp s (fullReport (Plan.new s options now) s options) grouping.1 grouping.2 := by
  obtain ⟨group, label⟩ := grouping
  have hfreed : ((Plan.new s options now).freed.map fun freed => s.bytesOf freed.1).sum < 2 ^ 64 := by
    rw [sum_freed hs]
    exact Nat.lt_of_le_of_lt (bytesWhere_le _) hfits
  have hlast : ∀ k, ((freedLast (Plan.new s options now) s label k).map fun freed => s.bytesOf freed.1).sum < 2 ^ 64 :=
    fun k => Nat.lt_of_le_of_lt ((List.filter_sublist.map _).sum_le_sum fun _ _ => Nat.zero_le _) hfreed
  constructor
  · rw [bucketsOf_fullReport _ s options h, sum_buckets]
    have hkeys : ∀ freed ∈ (Plan.new s options now).freed,
        labelAt s label freed.2 ∈ (tallied (Plan.new s options now) s group label).keys.toFinset := fun freed hfreed =>
      (mem_keys_tallied _ s group label _).2
        ⟨freed.2, freed_lt hs now (Plan.reached_evictions s options now) freed hfreed, rfl⟩
    have hsum := sum_groups _ (fun freed : Nat × Nat => labelAt s label freed.2) (fun freed => s.bytesOf freed.1) hkeys
    have htotal : (fullReport (Plan.new s options now) s options).evictedBytes =
        ((Plan.new s options now).freed.map fun freed => s.bytesOf freed.1).sum := wrappingSum_of_lt hfreed
    rw [htotal, ← hsum]
    exact Finset.sum_congr rfl fun k _ => wrappingSum_of_lt (hlast k)
  · rw [bucketsOf_fullReport _ s options h]
    intro bucket hbucket
    have hexclusive := congrArg GcBucket.exclusiveBytes (mem_buckets _ s group label hbucket)
    rw [hexclusive, ← sum_exclusive]
    refine wrappingSum_of_lt ?_
    rw [sum_exclusive]
    exact Nat.lt_of_le_of_lt (bytesWhere_le _) hfits

/-- What is taken off the bytes is what is freed and what nothing references. -/
theorem bytes_difference (hs : s.Built) (hfits : (s.blobs.map (·.bytes)).sum < 2 ^ 64) :
    (fullReport (Plan.new s options now) s options).bytesBefore -
        (fullReport (Plan.new s options now) s options).bytesAfter =
      (fullReport (Plan.new s options now) s options).evictedBytes +
        (fullReport (Plan.new s options now) s options).unreferencedBytes := by
  obtain ⟨-, -, -, hafter⟩ := Plan.exists_fitsAfter hs options now
  have htotal : s.totalBytes = (s.blobs.map (·.bytes)).sum := by
    rw [hs.totalBytes_eq, Snapshot.foldl_saturatingAdd _ _ (Nat.zero_le _), Nat.zero_add, U64_MAX]
    omega
  have hselected := bytesWhere_le (s := s) (s.SelectedBy now (Plan.new s options now).evicted)
  rw [Snapshot.bytesWhere_selectedBy] at hselected
  have hevicted : (fullReport (Plan.new s options now) s options).evictedBytes =
      s.bytesWhere (s.FreedBy (Plan.new s options now).evicted) := by
    rw [← sum_freed hs]
    exact wrappingSum_of_lt (by rw [sum_freed hs]; omega)
  have hunreferenced : (fullReport (Plan.new s options now) s options).unreferencedBytes =
      s.bytesWhere (s.Unclaimed now) := by
    rw [← s.sum_unreferenced now]
    refine wrappingSum_of_lt ?_
    have hsum : ((Plan.new s options now).unreferenced.map s.bytesOf).sum = _ := s.sum_unreferenced now
    omega
  have hbefore : (fullReport (Plan.new s options now) s options).bytesBefore = s.totalBytes := rfl
  have hleft : (fullReport (Plan.new s options now) s options).bytesAfter = (Plan.new s options now).bytesAfter := rfl
  rw [hevicted, hunreferenced, hbefore, hleft, hafter, Snapshot.bytesAfter, Snapshot.bytesWhere_selectedBy]
  omega

/-- A report's groupings add up to its totals: the records always, the bytes where the snapshot's are less than
a `u64` can count. -/
theorem fullReport_addsUp (blobs : List GcBlob) (units : List (GcUnit × List Text)) (journalEntries startedMs : Nat)
    (options : GcOptions) (now : Nat) :
    let s := Snapshot.build blobs units journalEntries startedMs
    let report := fullReport (Plan.new s options now) s options
    (∀ grouping ∈ groupings s.startedMs, RecordsAddUp report grouping.1) ∧
      ((blobs.map (·.bytes)).sum < 2 ^ 64 →
        (∀ grouping ∈ groupings s.startedMs, BytesAddUp s report grouping.1 grouping.2) ∧
          report.bytesBefore - report.bytesAfter = report.evictedBytes + report.unreferencedBytes) := by
  intro s report
  have hs : s.Built := Snapshot.built_build blobs units journalEntries startedMs
  have hblobs : s.blobs = blobs := Snapshot.build_blobs blobs units journalEntries startedMs
  refine ⟨fun grouping h => recordsAddUp s options _ h, fun hfits => ?_⟩
  rw [← hblobs] at hfits
  exact ⟨fun grouping h => bytesAddUp options now hs hfits h, bytes_difference options now hs hfits⟩

/-- Of two units that share a blob, the one used least recently goes, and the blob of its own with it. -/
theorem fullReport_sharing :
    let s := Snapshot.build Plan.sharedBlobs Plan.sharingUnits 0 0
    let report := fullReport (Plan.new s ⟨25, false, none, none⟩ 5) s ⟨25, false, none, none⟩
    (∀ grouping ∈ groupings s.startedMs, BytesAddUp s report grouping.1 grouping.2) ∧
      report.bytesBefore - report.bytesAfter = report.evictedBytes + report.unreferencedBytes :=
  (fullReport_addsUp Plan.sharedBlobs Plan.sharingUnits 0 0 ⟨25, false, none, none⟩ 5).2 (by decide +kernel)

/-- Two blobs of `2 ^ 63` bytes that one unit references: what is freed wraps to no bytes, what there was does not. -/
theorem fullReport_wraps : ¬ ∀ (blobs : List GcBlob) (units : List (GcUnit × List Text)) (journalEntries startedMs : Nat)
    (options : GcOptions) (now : Nat),
    let s := Snapshot.build blobs units journalEntries startedMs
    let report := fullReport (Plan.new s options now) s options
    report.bytesBefore - report.bytesAfter = report.evictedBytes + report.unreferencedBytes := by
  intro h
  have hwrapped := h [⟨"a".toList, 2 ^ 63, 0⟩, ⟨"b".toList, 2 ^ 63, 0⟩]
    [(Plan.usedUnit .library 1, ["a".toList, "b".toList])] 0 0 ⟨0, false, none, none⟩ 5
  revert hwrapped
  decide +kernel

end Bellows.Collect
