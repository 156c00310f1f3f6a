/-
Why a collection does not delete the blobs of a record it has seen.

A record is sheltered (`Shelters`) if the scan will still list its file, or
has found it, or the plan keeps it, or evicts it and has not yet been at its
file. A sheltered record that outlives the evictions is one the plan keeps, or
a candidate that was used again (`Shelters.step`), and of a kept record no
blob is selected (`not_selected_of_kept`). So what a collection may take blobs
from are the records put after it began, those in a directory it has
overlooked, and candidates that were used since (`Covered`).
-/
import Bellows.Collect.CollectorSteps
import Bellows.Lib.Run

namespace Bellows.Collect

open Bellows.Core Transition

/-! ## What the scan and the plan have of a record -/

def Directory.order : Directory → Nat
  | .actions => 0
  | .declared => 1
  | .archives => 2

theorem Directory.order_injective : Function.Injective Directory.order := by
  intro a b h
  cases a <;> cases b <;> first | rfl | cases h

/-- The file is still to be listed, or read. -/
def ScanPhase.Ahead (path : RecordPath) : ScanPhase → Prop
  | .listing dir => Directory.order dir ≤ Directory.order path.directory
  | .shards dir left found =>
    path ∈ found ∨ path.directory = dir ∧ subdirectory path ∈ left ∨ Directory.order dir < Directory.order path.directory
  | .records dir left => path ∈ left ∨ Directory.order dir < Directory.order path.directory
  | _ => True

namespace Scan

/-- The scan has read the record, in the file of its key. -/
def Found (scan : Scan) (r : Record) : Prop := ∃ x ∈ scan.scanned, x.path = r.path ∧ x.record = r

/-- The plan keeps the record, found in the file of its key. -/
def Kept (scan : Scan) (r : Record) : Prop :=
  ∃ index x, scan.records[index]? = some x ∧ x.path = r.path ∧ x.record = r ∧ scan.plan.evicted index = false

variable {scan : Scan}

theorem snapshot_represents (scan : Scan) : scan.snapshot.Represents scan.records :=
  Snapshot.read_represents _ _ _ _

/-- **The plan selects no blob of a record it keeps.** -/
theorem not_selected_of_kept (hn : (scan.blobs.map (·.digest)).Nodup) {r : Record} (h : scan.Kept r) {d : Text}
    (hd : d ∈ r.digests) : d ∉ scan.selected := by
  intro hsel
  obtain ⟨index, x, hx, -, rfl, hev⟩ := h
  obtain ⟨blob, hblob, hsome⟩ := List.mem_filterMap.1 hsel
  obtain ⟨b, hb, rfl⟩ := Option.map_eq_some_iff.1 hsome
  have hblobs : scan.snapshot.blobs = scan.blobs := Snapshot.read_blobs _ _ _ _
  exact Plan.not_selected_of_kept scan.snapshot_represents (by rw [hblobs]; exact hn) _ _ hx hev hb hd hblob

theorem mem_records {x : Scanned} : x ∈ scan.records ↔ x ∈ scan.scanned ∧ x.path ∈ scan.listing := by
  simp only [records, List.mem_flatMap, List.mem_filter, beq_iff_eq]
  constructor
  · rintro ⟨path, hp, hx, rfl⟩
    exact ⟨hx, hp⟩
  · rintro ⟨hx, hp⟩
    exact ⟨x.path, hp, hx, rfl⟩

theorem mem_evictedUnits {unit : GcUnit} : unit ∈ scan.evictedUnits ↔
    ∃ index : Nat, scan.snapshot.units[index]? = some unit ∧ scan.plan.evicted index = true := by
  simp only [evictedUnits, List.mem_map, List.mem_filter, Prod.exists, List.mem_zipIdx_iff_getElem?]
  constructor
  · rintro ⟨_, index, ⟨hu, hev⟩, rfl⟩
    exact ⟨index, hu, hev⟩
  · rintro ⟨index, hu, hev⟩
    exact ⟨unit, index, ⟨hu, hev⟩, rfl⟩

/-- A record found is kept, or a unit that names it is evicted. -/
theorem Found.kept_or_evicted (h : scan.WellScanned) {r : Record} (hf : scan.Found r) : scan.Kept r ∨
    ∃ unit ∈ scan.evictedUnits, unit.path = r.path ∧ unit.candidate = r.identity := by
  obtain ⟨x, hx, hp, rfl⟩ := hf
  obtain ⟨index, hi⟩ := List.mem_iff_getElem?.1 (mem_records.2 ⟨hx, h.listed x hx⟩)
  cases hev : scan.plan.evicted index with
  | false => exact .inl ⟨index, x, hi, hp, rfl, hev⟩
  | true =>
    obtain ⟨unit, hu, hpath, hc, -⟩ := scan.snapshot_represents.unit_of index x hi
    exact .inr ⟨unit, mem_evictedUnits.2 ⟨index, hu, hev⟩, hpath.trans hp, hc⟩

theorem mem_evictions {entry : RecordPath × List GcUnit} : entry ∈ scan.evictions ↔
    (∃ unit ∈ scan.evictedUnits, unit.path = entry.1) ∧
      entry.2 = scan.evictedUnits.filter (·.path == entry.1) := by
  simp only [evictions, List.mem_map, List.mem_insertionSort, List.mem_dedup]
  constructor
  · rintro ⟨path, hp, rfl⟩
    exact ⟨hp, rfl⟩
  · rintro ⟨hp, he⟩
    exact ⟨entry.1, hp, by rw [← he]⟩

/-- Only indexes have units that are candidates. -/
theorem candidate_eq_none (h : scan.WellScanned) {unit : GcUnit} (hu : unit ∈ scan.evictedUnits)
    (hd : unit.path.directory ≠ .actions) : unit.candidate = none := by
  obtain ⟨index, hu, -⟩ := mem_evictedUnits.1 hu
  have hlt : index < scan.records.length := by
    rw [← scan.snapshot_represents.length_eq]
    exact (List.getElem?_eq_some_iff.1 hu).1
  obtain ⟨x, hx⟩ : ∃ x, scan.records[index]? = some x := ⟨_, List.getElem?_eq_getElem hlt⟩
  obtain ⟨unit', hu', hp, hc, -⟩ := scan.snapshot_represents.unit_of index x hx
  cases hu.symm.trans hu'
  have hk := h.kinds x (mem_records.1 (List.mem_of_getElem? hx)).1
  rw [hc]
  cases hr : x.record with
  | candidate c => rw [hr] at hk; exact absurd (by rw [hp, ← hk]; rfl) hd
  | declared r => rfl
  | archive m => rfl

/-- A record of a file the plan's evictions were at is one the plan keeps, or
a candidate used again. -/
theorem kept_of_survives (h : scan.WellScanned) {store : Store} {r : Record} {uses : List (Text × Text)}
    {units : List GcUnit} (he : (r.path, units) ∈ scan.evictions) (hf : scan.Found r)
    (ht : (store.evictFrom uses r.path units).Holds r) :
    scan.Kept r ∨ ∃ c, r = .candidate c ∧ (c.staticKey, c.actionKey) ∈ uses := by
  rcases hf.kept_or_evicted h with hk | ⟨unit, hu, hpath, hc⟩
  · exact .inl hk
  right
  obtain ⟨-, hunits⟩ := mem_evictions.1 he
  dsimp only at hunits
  have hmem : unit ∈ units := by
    rw [hunits, List.mem_filter]
    exact ⟨hu, beq_iff_eq.2 hpath⟩
  have hgone : r.path.directory ≠ .actions → False := fun hd => by
    have hall : units.all (·.candidate.isNone) = true := by
      rw [List.all_eq_true]
      intro unit' hu'
      rw [hunits, List.mem_filter, beq_iff_eq] at hu'
      rw [candidate_eq_none h hu'.1 (by rw [hu'.2]; exact hd), Option.isNone_none]
    unfold Store.evictFrom at ht
    rw [if_pos hall] at ht
    exact Store.not_holds_remove store r ht
  cases r with
  | candidate c =>
    refine ⟨c, rfl, ?_⟩
    have hnot := Store.not_evicts_of_holds ht unit hmem
    rw [Store.evicts, hc] at hnot
    simpa [Record.identity] using hnot
  | declared r => exact (hgone (by intro hd; cases hd)).elim
  | archive m => exact (hgone (by intro hd; cases hd)).elim

end Scan

/-! ## Shelter -/

/-- What a collection knows of the record keeps its blobs; a dry run needs to
know nothing. -/
def Collector.Shelters (r : Record) : Collector → Prop
  | .idle => True
  | .scanning scan phase => scan.options.dryRun = true ∨ phase.Ahead r.path ∨ scan.Found r
  | .applying scan _ phase => scan.Kept r ∨ scan.Found r ∧ ∃ units, (r.path, units) ∈ phase.pending

/-- A candidate whose use the collection has read. -/
def Collector.Used (collector : Collector) (r : Record) : Prop :=
  ∃ c, r = .candidate c ∧ (c.staticKey, c.actionKey) ∈ collector.recent.uses

/-- The collection's next step takes the directory of the path, or the
subdirectory, for one that is not there. -/
def State.Overlooks (s : State) (event : Event) (id : Nat) (path : RecordPath) : Prop :=
  event = .overlook id ∧ ∃ scan phase, s.collectors id = .scanning scan phase ∧
    (phase = .listing path.directory ∨ ∃ left found, phase = .shards path.directory (subdirectory path :: left) found)

section

variable {cfg : Config} {s t : State} {event : Event} {id : Nat} {r : Record}

/-- With nothing left to evict, the record is one that the plan keeps. -/
theorem Collector.Shelters.kept {scan : Scan} {recent : Recent} {phase : ApplyPhase}
    (h : (Collector.applying scan recent phase).Shelters r) (hp : phase.pending = []) : scan.Kept r := by
  rcases h with hk | ⟨-, units, hu⟩
  · exact hk
  · rw [hp] at hu
    cases hu

/-- **A record stays sheltered**, but for a candidate to be evicted that was
used again, and for records whose directory is overlooked. -/
theorem Collector.Shelters.step (hi : (s.collectors id).Sound) (h : Collects cfg s event id t)
    (hs : s.store.Holds r) (ht : t.store.Holds r) (hr : (s.collectors id).Shelters r) :
    (t.collectors id).Shelters r ∨ (s.collectors id).Used r ∨ s.Overlooks event id r.path := by
  have hself : ∀ collector : Collector, collector.Shelters r → (Function.update s.collectors id collector id).Shelters r :=
    fun collector h => by rwa [Function.update_self]
  cases h with
  | begun options now phase _ hc _ hp =>
    refine .inl (hself _ ?_)
    rcases hp with ⟨-, hdry⟩ | rfl
    · exact .inl hdry
    · exact .inr (.inl trivial)
  | rotated scan hc => exact .inl (hself _ (.inr (.inl trivial)))
  | readUses scan hc => exact .inl (hself _ (.inr (.inl trivial)))
  | enteredBlobs scan shards hc => exact .inl (hself _ (.inr (.inl trivial)))
  | listedBlobs scan shard left found order hc hp => exact .inl (hself _ (.inr (.inl trivial)))
  | foundBlobs scan found hc => exact .inl (hself _ (.inr (.inl trivial)))
  | readBlob scan digest left found hc hf => exact .inl (hself _ (.inr (.inl trivial)))
  | readBlobs scan hc => exact .inl (hself _ (.inr (.inl (Nat.zero_le _))))
  | enteredRecords scan dir shards hc hall =>
    rw [hc] at hr
    refine .inl (hself _ (hr.imp_right (Or.imp_left fun hle => ?_)))
    rcases Nat.lt_or_eq_of_le hle with hlt | heq
    · exact .inr (.inr hlt)
    · have hdir := Directory.order_injective heq
      exact .inr (.inl ⟨hdir.symm, hall _ (hdir ▸ Store.path_mem_paths hs)⟩)
  | listedRecords scan dir shard left found order hc hp =>
    rw [hc] at hr
    refine .inl (hself _ (hr.imp_right (Or.imp_left fun hahead => ?_)))
    rcases hahead with hf | ⟨rfl, hleft⟩ | hlt
    · exact .inl (List.mem_append_left _ hf)
    · rcases List.mem_cons.1 hleft with he | hleft
      · refine .inl (List.mem_append_right _ (hp.mem_iff.2 (List.mem_filter.2 ⟨Store.path_mem_paths hs, ?_⟩)))
        exact beq_iff_eq.2 he
      · exact .inr (.inl ⟨rfl, hleft⟩)
    · exact .inr (.inr hlt)
  | foundRecords scan dir found hc =>
    rw [hc] at hr
    refine .inl (hself _ (hr.imp_right (Or.imp_left fun hahead => ?_)))
    rcases hahead with hf | ⟨-, hleft⟩ | hlt
    · exact .inl hf
    · cases hleft
    · exact .inr hlt
  | overlooked scan phase next he hc hnext =>
    rw [hc] at hr
    cases phase with
    | rotating | reading | listingBlobs =>
      cases hnext
      exact .inl (hself _ (.inr (.inl trivial)))
    | blobs | records => cases hnext
    | blobShards left found =>
      cases left with
      | nil => cases hnext
      | cons shard left =>
        cases hnext
        exact .inl (hself _ (.inr (.inl trivial)))
    | listing dir =>
      cases hnext
      rcases hr with hdry | hle | hf
      · exact .inl (hself _ (.inl hdry))
      · rcases Nat.lt_or_eq_of_le hle with hlt | heq
        · exact .inl (hself _ (.inr (.inl (.inr hlt))))
        · exact .inr (.inr ⟨he, scan, _, hc, .inl (congrArg _ (Directory.order_injective heq))⟩)
      · exact .inl (hself _ (.inr (.inr hf)))
    | shards dir left found =>
      cases left with
      | nil => cases hnext
      | cons shard left =>
        cases hnext
        rcases hr with hdry | (hfound | ⟨rfl, hleft⟩ | hlt) | hf
        · exact .inl (hself _ (.inl hdry))
        · exact .inl (hself _ (.inr (.inl (.inl hfound))))
        · rcases List.mem_cons.1 hleft with rfl | hleft
          · exact .inr (.inr ⟨he, scan, _, hc, .inr ⟨left, found, rfl⟩⟩)
          · exact .inl (hself _ (.inr (.inl (.inr (.inl ⟨rfl, hleft⟩)))))
        · exact .inl (hself _ (.inr (.inl (.inr (.inr hlt)))))
        · exact .inl (hself _ (.inr (.inr hf)))
  | readRecord scan dir left path modifiedMs hc hm =>
    rw [hc] at hr
    refine .inl (hself _ ?_)
    rcases hr with hdry | (hl | hlt) | hf
    · exact .inl hdry
    · by_cases he : r.path = path
      · exact .inr (.inr ⟨⟨path, r, modifiedMs⟩, List.mem_append_right _ (List.mem_map.2 ⟨r, he ▸ hs, rfl⟩), he.symm, rfl⟩)
      · exact .inr (.inl (.inl ((List.mem_erase_of_ne he).2 hl)))
    · exact .inr (.inl (.inr hlt))
    · obtain ⟨x, hx, hrest⟩ := hf
      exact .inr (.inr ⟨x, List.mem_append_left _ hx, hrest⟩)
  | readRecords scan dir hc =>
    rw [hc] at hr hi
    refine .inl (hself _ ?_)
    cases dir with
    | actions => exact hr.imp_right (Or.imp_left fun h => h.resolve_left List.not_mem_nil)
    | declared => exact hr.imp_right (Or.imp_left fun h => h.resolve_left List.not_mem_nil)
    | archives =>
      rw [State.nextDirectory]
      split
      · trivial
      next hdry =>
      rcases hr.resolve_left hdry with (hl | hlt) | hf
      · cases hl
      · cases hd : r.path.directory <;> rw [hd] at hlt <;> simp [Directory.order] at hlt
      · rcases hf.kept_or_evicted hi.1 with hk | ⟨unit, hu, hp, -⟩
        · exact .inl hk
        · exact .inr ⟨hf, scan.evictedUnits.filter (·.path == r.path), Scan.mem_evictions.2 ⟨⟨unit, hu, hp⟩, rfl⟩⟩
  | batchBegun scan recent failing phase phase' hfails hc hb hb' hp hd hrem hm hw =>
    rw [hc] at hr
    exact .inl (hself _ (hr.imp_right fun hf => by rw [hp]; exact hf))
  | batchEnded scan recent phase phase' hc hb hp hd =>
    rw [hc] at hr
    exact .inl (hself _ (hr.imp_right fun hf => by rw [hp]; exact hf))
  | evicted scan recent path units now left _ hc =>
    rw [hc] at hr hi
    rcases hr with hk | ⟨hf, units', hu⟩
    · exact .inl (hself _ (.inl hk))
    rcases List.mem_cons.1 hu with he | hu
    · cases he
      rcases Scan.kept_of_survives hi.scanned (hi.pending _ hu) hf ht with hk | hused
      · exact .inl (hself _ (.inl hk))
      · exact .inr (.inl (by rw [hc]; exact hused))
    · exact .inl (hself _ (.inr ⟨hf, units', hu⟩))
  | evictedAll scan recent hc =>
    rw [hc] at hr
    exact .inl (hself _ (.inl (hr.kept rfl)))
  | spared scan recent digest now left hc =>
    rw [hc] at hr
    exact .inl (hself _ (.inl (hr.kept rfl)))
  | removing scan recent digest now left hc hd =>
    rw [hc] at hr
    exact .inl (hself _ (.inl (hr.kept rfl)))
  | removed scan recent digest now left _ hc =>
    rw [hc] at hr
    exact .inl (hself _ (.inl (hr.kept rfl)))
  | freedAll scan recent hc =>
    rw [hc] at hr
    exact .inl (hself _ (.inl (hr.kept rfl)))
  | compacted scan recent hc => exact .inl (hself _ trivial)
  | abandoned => exact .inl (hself _ trivial)

/-- **No blob of a sheltered record is removed.** -/
theorem not_mem_digests_of_removing (hi : (s.collectors id).Sound) {scan : Scan} {recent : Recent}
    {d : Text} {now left : List Text} (hc : s.collectors id = .applying scan recent (.removing d now left))
    (hr : (s.collectors id).Shelters r) : d ∉ r.digests := by
  rw [hc] at hi hr
  have hk : scan.Kept r := hr.resolve_right fun ⟨_, _, hu⟩ => by cases hu
  exact fun hd => Scan.not_selected_of_kept hi.nodup hk hd (hi.deleting d List.mem_cons_self)

end

/-! ## What a collection cannot know -/

/-- The moves since the collection under way began. -/
def since (id : Nat) (ms : List (Move State Event)) : List (Move State Event) :=
  ms.foldl (fun since m => match m.pre.collectors id with
    | .idle => []
    | _ => since ++ [m]) []

/-- The next step is a put of the record. -/
def State.Puts (s : State) (event : Event) (r : Record) : Prop :=
  ∃ id now, event = .proceed id now ∧ (s.jobs id).publishing = some r

/-- Put since the collection under way began, or in a directory that it has
overlooked. -/
def Unseen (ms : List (Move State Event)) (id : Nat) (r : Record) : Prop :=
  ∃ m ∈ since id ms, m.pre.Puts m.label r ∨ m.pre.Overlooks m.label id r.path

/-- Each collection shelters every record but those it has not seen and the
candidates that were used since. -/
def Covered (ms : List (Move State Event)) (s : State) : Prop :=
  ∀ id r, s.store.Holds r →
    (s.collectors id).Shelters r ∨ Unseen ms id r ∨ (s.collectors id).Used r

section

variable {cfg : Config} {ms : List (Move State Event)} {s t : State} {event : Event} {id : Nat} {r : Record}

theorem since_concat (h : s.collectors id ≠ .idle) :
    since id (ms ++ [⟨s, event, t⟩]) = since id ms ++ [⟨s, event, t⟩] := by
  unfold since
  rw [List.foldl_append, List.foldl_cons, List.foldl_nil]
  dsimp only
  split
  · next hc => exact absurd hc h
  · rfl

theorem Unseen.concat (h : s.collectors id ≠ .idle) (hr : Unseen ms id r) : Unseen (ms ++ [⟨s, event, t⟩]) id r := by
  obtain ⟨m, hm, hr⟩ := hr
  exact ⟨m, since_concat h ▸ List.mem_append_left _ hm, hr⟩

theorem unseen_of_step (h : s.collectors id ≠ .idle) (hr : s.Puts event r ∨ s.Overlooks event id r.path) :
    Unseen (ms ++ [⟨s, event, t⟩]) id r :=
  ⟨⟨s, event, t⟩, since_concat h ▸ List.mem_append_right _ (List.mem_singleton_self _), hr⟩

/-- What has been read of the uses is not forgotten before the collection ends. -/
theorem Collector.Used.collects (h : Collects cfg s event id t) (hu : (s.collectors id).Used r) :
    (t.collectors id).Used r ∨ (t.collectors id).Shelters r := by
  obtain ⟨c, rfl, hu⟩ := hu
  have hself : ∀ collector : Collector, collector.Used (.candidate c) ∨ collector.Shelters (.candidate c) →
      (Function.update s.collectors id collector id).Used (.candidate c) ∨
        (Function.update s.collectors id collector id).Shelters (.candidate c) :=
    fun collector h => by rwa [Function.update_self]
  cases h with
  | begun _ _ _ _ hc | rotated _ hc | readUses _ hc | enteredBlobs _ _ hc | listedBlobs _ _ _ _ _ hc | foundBlobs _ _ hc
  | readBlob _ _ _ _ hc | readBlobs _ hc | enteredRecords _ _ _ hc | listedRecords _ _ _ _ _ _ hc | foundRecords _ _ _ hc
  | overlooked _ _ _ _ hc | readRecord _ _ _ _ _ hc | readRecords _ _ hc =>
    rw [hc] at hu
    cases hu
  | batchBegun scan recent failing phase phase' hfails hc =>
    rw [hc] at hu
    refine hself _ (.inl ⟨c, rfl, ?_⟩)
    rw [Collector.recent, (Recent.refresh_spec cfg.validators failing recent s.store).2.2.1]
    exact List.mem_append_left _ hu
  | batchEnded scan recent phase phase' hc | evicted scan recent path units now left _ hc | evictedAll scan recent hc
  | spared scan recent digest now left hc | removing scan recent digest now left hc
  | removed scan recent digest now left _ hc | freedAll scan recent hc =>
    rw [hc] at hu
    exact hself _ (.inl ⟨c, rfl, hu⟩)
  | compacted scan recent hc => exact hself _ (.inr trivial)
  | abandoned => exact hself _ (.inr trivial)

theorem Covered.step (hi : Inv cfg s) (hc : Covered ms s) (h : State.Step cfg s event t) :
    Covered (ms ++ [⟨s, event, t⟩]) t := by
  intro id r ht
  rcases step_cases h with ⟨job, hj⟩ | ⟨other, hcol⟩
  · rw [hj.collectors]
    by_cases hidle : s.collectors id = .idle
    · rw [hidle]
      exact .inl trivial
    rcases hj.holds r ht with hs | ⟨⟨now, rfl⟩, hp⟩
    · exact (hc id r hs).imp_right (Or.imp_left (.concat hidle))
    · exact .inr (.inl (unseen_of_step hidle (.inl ⟨job, now, rfl, hp.goal⟩)))
  have hs := hcol.holds r ht
  by_cases hother : id = other
  · subst hother
    have hshelters (hsh : (s.collectors id).Shelters r) : (t.collectors id).Shelters r ∨
        Unseen (ms ++ [⟨s, event, t⟩]) id r ∨ (t.collectors id).Used r := by
      rcases hsh.step (hi.sound id) hcol hs ht with hsh | hu | ho
      · exact .inl hsh
      · exact (hu.collects hcol).symm.imp_right .inr
      · refine .inr (.inl (unseen_of_step (fun hidle => ?_) (.inr ho)))
        obtain ⟨-, scan, phase, hc, -⟩ := ho
        cases hidle.symm.trans hc
    by_cases hidle : s.collectors id = .idle
    · exact hshelters (by rw [hidle]; trivial)
    rcases hc id r hs with hsh | hn | hu
    · exact hshelters hsh
    · exact .inr (.inl (hn.concat hidle))
    · exact (hu.collects hcol).symm.imp_right .inr
  · rw [hcol.others hother]
    by_cases hidle : s.collectors id = .idle
    · rw [hidle]
      exact .inl trivial
    · exact (hc id r hs).imp_right (Or.imp_left (.concat hidle))

end

end Bellows.Collect
