/-
What a step of a collection can do (`Collects`), and what a collection keeps of
its own bookkeeping (`Sound`): the scan knows the files it listed, the plan's
lists are what is left of it, and a batch holds its locks.
-/
import Bellows.Collect.Steps
import Bellows.Core.GcFacts

namespace Bellows.Collect

open Bellows.Core

/-! ## Phases -/

namespace ApplyPhase

/-- Files still to take units from. -/
def pending : ApplyPhase → List (RecordPath × List GcUnit)
  | .evicting left => left
  | .evictBatch now left => now ++ left
  | _ => []

/-- Blobs still to delete. -/
def deleting : ApplyPhase → List Text
  | .freeing left => left
  | .freeBatch now left => now ++ left
  | .removing digest now left => digest :: (now ++ left)
  | _ => []

/-- Between a batch's refresh and its end. -/
def InBatch : ApplyPhase → Prop
  | .evictBatch _ _ | .freeBatch _ _ | .removing _ _ _ => True
  | _ => False

end ApplyPhase

def Collector.InBatch : Collector → Prop
  | .applying _ _ phase => phase.InBatch
  | _ => False

/-- What has been found published since; nothing before the plan is made. -/
def Collector.recent : Collector → Recent
  | .applying _ recent _ => recent
  | _ => .empty

/-! ## Steps of a collection -/

inductive Collects (cfg : Config) (s : State) (event : Event) (id : Nat) : State → Prop
  | begun (options : GcOptions) (now : Nat) (phase : ScanPhase) :
    event = .collect id options now → s.collectors id = .idle → (cfg.serialize = true → id = 0) →
    phase = .reading ∧ options.dryRun = true ∨ phase = .rotating →
    Collects cfg s event id (s.setCollector id (.scanning ⟨options, now, [], [], [], []⟩ phase))
  | rotated (scan : Scan) : s.collectors id = .scanning scan .rotating →
    Collects cfg s event id { s.setCollector id (.scanning scan .reading) with
      store := { s.store with journal := s.store.journal.rotate } }
  | readUses (scan : Scan) : s.collectors id = .scanning scan .reading →
    Collects cfg s event id (s.setCollector id (.scanning { scan with uses := s.store.journal.uses } .listingBlobs))
  | enteredBlobs (scan : Scan) (shards : List Text) : s.collectors id = .scanning scan .listingBlobs → shards.Nodup →
    Collects cfg s event id (s.setCollector id (.scanning scan (.blobShards shards [])))
  | listedBlobs (scan : Scan) (shard : Text) (left found order : List Text) :
    s.collectors id = .scanning scan (.blobShards (shard :: left) found) →
    order.Perm (s.store.blobs.keys.filter (·.take 2 == shard)) →
    Collects cfg s event id (s.setCollector id (.scanning scan (.blobShards left (found ++ order))))
  | foundBlobs (scan : Scan) (found : List Text) : s.collectors id = .scanning scan (.blobShards [] found) →
    Collects cfg s event id (s.setCollector id (.scanning scan (.blobs found)))
  | readBlob (scan : Scan) (digest : Text) (left : List Text) (found : Option GcBlob) :
    s.collectors id = .scanning scan (.blobs (digest :: left)) → (∀ b ∈ found, b.digest = digest) →
    Collects cfg s event id (s.setCollector id (.scanning { scan with blobs := scan.blobs ++ found.toList } (.blobs left)))
  | readBlobs (scan : Scan) : s.collectors id = .scanning scan (.blobs []) →
    Collects cfg s event id (s.setCollector id (.scanning scan (.listing .actions)))
  | enteredRecords (scan : Scan) (dir : Directory) (shards : List Text) : s.collectors id = .scanning scan (.listing dir) →
    (∀ path ∈ s.store.paths dir, subdirectory path ∈ shards) →
    Collects cfg s event id (s.setCollector id (.scanning scan (.shards dir shards [])))
  | listedRecords (scan : Scan) (dir : Directory) (shard : Text) (left : List Text) (found order : List RecordPath) :
    s.collectors id = .scanning scan (.shards dir (shard :: left) found) →
    order.Perm ((s.store.paths dir).filter (subdirectory · == shard)) →
    Collects cfg s event id (s.setCollector id (.scanning scan (.shards dir left (found ++ order))))
  | foundRecords (scan : Scan) (dir : Directory) (found : List RecordPath) :
    s.collectors id = .scanning scan (.shards dir [] found) →
    Collects cfg s event id
      (s.setCollector id (.scanning { scan with listing := scan.listing ++ found } (.records dir found)))
  | overlooked (scan : Scan) (phase next : ScanPhase) : event = .overlook id →
    s.collectors id = .scanning scan phase → phase.missed = some next →
    Collects cfg s event id (s.setCollector id (.scanning scan next))
  | readRecord (scan : Scan) (dir : Directory) (left : List RecordPath) (path : RecordPath) (modifiedMs : Nat) :
    s.collectors id = .scanning scan (.records dir left) → path ∈ left →
    Collects cfg s event id (s.setCollector id (.scanning { scan with
        scanned := scan.scanned ++ (s.store.recordsAt path).map fun r => ⟨path, r, modifiedMs⟩ }
        (.records dir (left.erase path))))
  | readRecords (scan : Scan) (dir : Directory) : s.collectors id = .scanning scan (.records dir []) →
    Collects cfg s event id (s.setCollector id (State.nextDirectory scan dir))
  | batchBegun (scan : Scan) (recent : Recent) (failing : List Text) (phase phase' : ApplyPhase) :
    failing = [] ∨ event = .passOver id failing → s.collectors id = .applying scan recent phase →
    ¬ phase.InBatch → phase'.InBatch →
    phase'.pending = phase.pending → phase'.deleting = phase.deleting → (∀ d now left, phase' ≠ .removing d now left) →
    s.mutation = none → (cfg.serialize = true → s.writes = none) →
    Collects cfg s event id { s.setCollector id (.applying scan (recent.refresh cfg.validators failing s.store).1 phase') with
      mutation := some (.collector id)
      writes := if cfg.serialize then some (.collector id) else s.writes
      store := (recent.refresh cfg.validators failing s.store).2 }
  | batchEnded (scan : Scan) (recent : Recent) (phase phase' : ApplyPhase) :
    s.collectors id = .applying scan recent phase → ¬ phase'.InBatch → phase'.pending = phase.pending →
    phase'.deleting = phase.deleting →
    Collects cfg s event id ((s.release (.collector id)).setCollector id (.applying scan recent phase'))
  | evicted (scan : Scan) (recent : Recent) (path : RecordPath) (units : List GcUnit)
      (now left : List (RecordPath × List GcUnit)) : event = .advance id →
    s.collectors id = .applying scan recent (.evictBatch ((path, units) :: now) left) →
    Collects cfg s event id { s.setCollector id (.applying scan recent (.evictBatch now left)) with
      store := s.store.evictFrom recent.uses path units }
  | evictedAll (scan : Scan) (recent : Recent) : s.collectors id = .applying scan recent (.evicting []) →
    Collects cfg s event id (s.setCollector id (.applying scan recent (.freeing scan.selected)))
  | spared (scan : Scan) (recent : Recent) (digest : Text) (now left : List Text) :
    s.collectors id = .applying scan recent (.freeBatch (digest :: now) left) →
    Collects cfg s event id (s.setCollector id (.applying scan recent (.freeBatch now left)))
  | removing (scan : Scan) (recent : Recent) (digest : Text) (now left : List Text) :
    s.collectors id = .applying scan recent (.freeBatch (digest :: now) left) → digest ∉ recent.blobs →
    Collects cfg s event id (s.setCollector id (.applying scan recent (.removing digest now left)))
  | removed (scan : Scan) (recent : Recent) (digest : Text) (now left : List Text) : event = .advance id →
    s.collectors id = .applying scan recent (.removing digest now left) →
    Collects cfg s event id { s.setCollector id (.applying scan recent (.freeBatch now left)) with
      store := s.store.removeBlob digest }
  | freedAll (scan : Scan) (recent : Recent) : s.collectors id = .applying scan recent (.freeing []) →
    Collects cfg s event id (s.setCollector id (.applying scan recent .compacting))
  | compacted (scan : Scan) (recent : Recent) : s.collectors id = .applying scan recent .compacting →
    Collects cfg s event id { s.setCollector id .idle with
      store := { s.store with journal := s.store.journal.compact scan.surviving } }
  | abandoned : s.collectors id ≠ .idle → Collects cfg s event id ((s.release (.collector id)).setCollector id .idle)

section

variable {cfg : Config} {s t : State} {event : Event} {id : Nat}

theorem beginBatch_eq {failing : List Text} {scan : Scan} {recent : Recent} {phase : ApplyPhase}
    (h : s.beginBatch cfg id failing scan recent phase = some t) :
    s.mutation = none ∧ (cfg.serialize = true → s.writes = none) ∧
      t = { s.setCollector id (.applying scan (recent.refresh cfg.validators failing s.store).1 phase) with
        mutation := some (.collector id)
        writes := if cfg.serialize then some (.collector id) else s.writes
        store := (recent.refresh cfg.validators failing s.store).2 } := by
  unfold State.beginBatch State.lockBatch at h
  split at h
  · cases h
  · next hn =>
    rw [not_or, not_not, not_and, not_not] at hn
    cases h
    exact ⟨hn.1, hn.2, rfl⟩

theorem advanceScan_collects {scan : Scan} {phase : ScanPhase} (hc : s.collectors id = .scanning scan phase)
    (h : s.advanceScan id scan phase = some t) : Collects cfg s event id t := by
  unfold State.advanceScan at h
  split at h
  · cases h; exact .rotated scan hc
  · cases h; exact .readUses scan hc
  · cases h
  · next found => cases h; exact .foundBlobs scan found hc
  · cases h
  · cases h; exact .readBlobs scan hc
  · next digest left =>
    cases h
    refine .readBlob scan digest left _ hc fun b hb => ?_
    obtain ⟨blob, -, rfl⟩ := Option.map_eq_some_iff.1 hb
    rfl
  · cases h
  · next dir found => cases h; exact .foundRecords scan dir found hc
  · cases h
  · next dir => cases h; exact .readRecords scan dir hc
  · cases h

theorem advanceApply_collects {failing : List Text} {scan : Scan} {recent : Recent} {phase : ApplyPhase}
    (hf : failing = [] ∨ event = .passOver id failing)
    (hadvance : phase.InBatch → event = .advance id)
    (hc : s.collectors id = .applying scan recent phase) (h : s.advanceApply cfg id failing scan recent phase = some t) :
    Collects cfg s event id t := by
  unfold State.advanceApply at h
  split at h
  · cases h; exact .evictedAll scan recent hc
  · next left _ =>
    obtain ⟨hm, hw, rfl⟩ := beginBatch_eq h
    exact .batchBegun scan recent _ _ (.evictBatch (left.take BATCH) (left.drop BATCH)) hf hc not_false trivial
      (List.take_append_drop BATCH left) rfl (by simp) hm hw
  · next left =>
    cases h
    exact .batchEnded scan recent _ (.evicting left) hc not_false rfl rfl
  · next path units now left => cases h; exact .evicted scan recent path units now left (hadvance trivial) hc
  · cases h; exact .freedAll scan recent hc
  · next left _ =>
    obtain ⟨hm, hw, rfl⟩ := beginBatch_eq h
    exact .batchBegun scan recent _ _ (.freeBatch (left.take BATCH) (left.drop BATCH)) hf hc not_false trivial rfl
      (List.take_append_drop BATCH left) (by simp) hm hw
  · next left =>
    cases h
    exact .batchEnded scan recent _ (.freeing left) hc not_false rfl rfl
  · next digest now left =>
    split at h
    · cases h; exact .spared scan recent digest now left hc
    split at h
    · cases h; exact .spared scan recent digest now left hc
    · next hs =>
      cases h
      refine .removing scan recent digest now left hc fun hd => hs ?_
      simp [State.spared, hd]
  · next digest now left =>
    cases h
    exact .removed scan recent digest now left (hadvance trivial) hc
  · cases h; exact .compacted scan recent hc

theorem advance_collects (h : s.advance cfg id = some t) : Collects cfg s (.advance id) id t := by
  unfold State.advance at h
  split at h
  · cases h
  · next scan phase hc => exact advanceScan_collects hc h
  · next scan recent phase hc => exact advanceApply_collects (.inl rfl) (fun _ => rfl) hc h

theorem passOver_collects {failing : List Text} (h : s.passOver cfg id failing = some t) :
    Collects cfg s (.passOver id failing) id t := by
  unfold State.passOver at h
  split at h
  · next hc => exact advanceApply_collects (.inr rfl) False.elim hc h
  · next hc => exact advanceApply_collects (.inr rfl) False.elim hc h
  · cases h

theorem collect_collects {options : GcOptions} {now : Nat} (h : s.collect cfg id options now = some t) :
    Collects cfg s (.collect id options now) id t := by
  unfold State.collect at h
  split at h
  · cases h
  next hserver =>
  split at h
  · next hc =>
    cases h
    refine .begun options now _ rfl hc ?_ ?_
    · intro hs
      by_contra hne
      exact hserver ⟨hs, hne⟩
    · split
      · next hdry => exact .inl ⟨rfl, hdry⟩
      · exact .inr rfl
  · cases h

theorem enter_collects {shards : List Text} (h : s.enter id shards = some t) :
    Collects cfg s (.enter id shards) id t := by
  unfold State.enter at h
  split at h
  · next scan hc =>
    obtain ⟨⟨hn, -⟩, h⟩ := Option.ite_none_right_eq_some.1 h
    cases h
    exact .enteredBlobs scan shards hc hn
  · next scan dir hc =>
    obtain ⟨⟨-, hall⟩, h⟩ := Option.ite_none_right_eq_some.1 h
    cases h
    exact .enteredRecords scan dir shards hc hall
  · cases h

theorem listBlobs_collects {order : List Text} (h : s.listBlobs id order = some t) :
    Collects cfg s (.listBlobs id order) id t := by
  unfold State.listBlobs at h
  split at h
  · next scan shard left found hc =>
    obtain ⟨hp, h⟩ := Option.ite_none_right_eq_some.1 h
    cases h
    exact .listedBlobs scan shard left found order hc hp
  · cases h

theorem listRecords_collects {order : List RecordPath} (h : s.listRecords id order = some t) :
    Collects cfg s (.listRecords id order) id t := by
  unfold State.listRecords at h
  split at h
  · next scan dir shard left found hc =>
    obtain ⟨hp, h⟩ := Option.ite_none_right_eq_some.1 h
    cases h
    exact .listedRecords scan dir shard left found order hc hp
  · cases h

theorem overlook_collects (h : s.overlook id = some t) : Collects cfg s (.overlook id) id t := by
  unfold State.overlook at h
  split at h
  · next scan phase hc =>
    obtain ⟨next, hnext, rfl⟩ := Option.map_eq_some_iff.1 h
    exact .overlooked scan phase next rfl hc hnext
  · cases h

theorem readRecord_collects {path : RecordPath} {modifiedMs : Nat} (h : s.readRecord id path modifiedMs = some t) :
    Collects cfg s (.readRecord id path modifiedMs) id t := by
  unfold State.readRecord at h
  split at h
  · next scan dir left hc =>
    obtain ⟨hp, h⟩ := Option.ite_none_right_eq_some.1 h
    cases h
    exact .readRecord scan dir left path modifiedMs hc hp
  · cases h

theorem abandon_collects (h : s.abandon id = some t) : Collects cfg s (.abandon id) id t := by
  unfold State.abandon at h
  split at h
  · cases h
  · next hc =>
    cases h
    exact .abandoned hc

/-- **Every step is a job's or a collection's.** -/
theorem step_cases (h : State.Step cfg s event t) :
    (∃ id, JobStep cfg s event t id) ∨ ∃ id, Collects cfg s event id t := by
  cases event with
  | start id request => exact .inl ⟨id, start_step h⟩
  | proceed id now => exact .inl ⟨id, proceed_step h⟩
  | giveUp id => exact .inl ⟨id, giveUp_step h⟩
  | cutShort id told => exact .inl ⟨id, cutShort_step h⟩
  | collect id options now => exact .inr ⟨id, collect_collects h⟩
  | misread id => exact .inl ⟨id, misread_step h⟩
  | enter id shards => exact .inr ⟨id, enter_collects h⟩
  | listBlobs id order => exact .inr ⟨id, listBlobs_collects h⟩
  | listRecords id order => exact .inr ⟨id, listRecords_collects h⟩
  | overlook id => exact .inr ⟨id, overlook_collects h⟩
  | readRecord id path modifiedMs => exact .inr ⟨id, readRecord_collects h⟩
  | advance id => exact .inr ⟨id, advance_collects h⟩
  | passOver id failing => exact .inr ⟨id, passOver_collects h⟩
  | abandon id => exact .inr ⟨id, abandon_collects h⟩

theorem Collects.removing_of_gone (h : Collects cfg s event id t) {d : Text} (hs : s.store.hasBlob d = true)
    (ht : t.store.hasBlob d = false) :
    event = .advance id ∧ ∃ scan recent now left, s.collectors id = .applying scan recent (.removing d now left) := by
  have habsurd : t.store.hasBlob d = s.store.hasBlob d → False := fun hb => by
    rw [hb, hs] at ht
    cases ht
  cases h with
  | removed scan recent digest now left he hcol =>
    have hd : d = digest := by
      by_contra hne
      exact habsurd (Store.hasBlob_removeBlob hne)
    exact ⟨he, scan, recent, now, left, hd ▸ hcol⟩
  | batchBegun scan recent failing => exact (habsurd ((Recent.refresh_spec _ failing recent s.store).1.hasBlob d)).elim
  | evicted scan recent path units =>
    exact (habsurd ((Store.evictFrom_shrinks s.store _ path units).hasBlob d)).elim
  | _ => exact (habsurd rfl).elim

/-- **A blob goes only as a collection removes it, or a put takes it for a
corrupt one.** -/
theorem removing_of_gone (h : State.Step cfg s event t) {d : Text}
    (hs : s.store.hasBlob d = true) (ht : t.store.hasBlob d = false) :
    (∃ id, event = .advance id ∧
      ∃ scan recent now left, s.collectors id = .applying scan recent (.removing d now left)) ∨
      ∃ id, s.Misreads event id d := by
  rcases step_cases h with ⟨id, hj⟩ | ⟨id, hc⟩
  · refine .inr ⟨id, (hj.blobs d hs).resolve_left fun hd => ?_⟩
    rw [hd] at ht
    cases ht
  · exact .inl ⟨id, hc.removing_of_gone hs ht⟩

/-- A collection adds no record. -/
theorem Collects.holds (h : Collects cfg s event id t) (r : Record) (ht : t.store.Holds r) : s.store.Holds r := by
  cases h with
  | batchBegun scan recent failing => exact (Recent.refresh_spec _ failing recent s.store).1.holds r ht
  | evicted scan recent path units => exact (Store.evictFrom_shrinks s.store _ path units).holds r ht
  | _ => exact ht

theorem Collects.jobs_eq (h : Collects cfg s event id t) : t.jobs = s.jobs := by cases h <;> rfl

/-- The other collections do not move. -/
theorem Collects.others (h : Collects cfg s event id t) {other : Nat} (hne : other ≠ id) :
    t.collectors other = s.collectors other := by
  cases h <;> exact Function.update_of_ne hne _ _

theorem release_other {before : Option Holder} {holder other : Holder} (hne : other ≠ holder) (h : before = some other) :
    (if before = some holder then none else before) = some other := by
  rw [if_neg (by rw [h]; exact fun he => hne (Option.some.inj he)), h]

/-- A lock that another holder has stays there. -/
theorem Collects.locks (h : Collects cfg s event id t) {holder : Holder} (hne : holder ≠ .collector id) :
    (s.mutation = some holder → t.mutation = some holder) ∧ (s.writes = some holder → t.writes = some holder) := by
  cases h with
  | batchBegun scan recent failing phase phase' hf hc hb hb' hp hd hr hm hw =>
    refine ⟨fun hh => (by rw [hm] at hh; cases hh), fun hh => ?_⟩
    dsimp only
    split
    · next hs => rw [hw hs] at hh; cases hh
    · exact hh
  | batchEnded => exact ⟨release_other hne, release_other hne⟩
  | abandoned => exact ⟨release_other hne, release_other hne⟩
  | _ => exact ⟨fun hh => hh, fun hh => hh⟩

end

/-! ## What a collection keeps -/

/-- What the scan found lies in the files it listed, each of its directory's
kind. -/
structure Scan.WellScanned (scan : Scan) : Prop where
  listed : ∀ x ∈ scan.scanned, x.path ∈ scan.listing
  kinds : ∀ x ∈ scan.scanned, x.record.path.directory = x.path.directory

/-- No blob is listed twice; the files to read were listed. -/
def ScanPhase.Reads (scan : Scan) : ScanPhase → Prop
  | .rotating | .reading | .listingBlobs => scan.blobs = []
  | .blobShards left found => scan.blobs = [] ∧ left.Nodup ∧ found.Nodup ∧ ∀ digest ∈ found, digest.take 2 ∉ left
  | .blobs left => (scan.blobs.map (·.digest) ++ left).Nodup
  | .listing _ | .shards _ _ _ => (scan.blobs.map (·.digest)).Nodup
  | .records _ left => (scan.blobs.map (·.digest)).Nodup ∧ ∀ path ∈ left, path ∈ scan.listing

structure Applies (scan : Scan) (recent : Recent) (phase : ApplyPhase) : Prop where
  scanned : scan.WellScanned
  nodup : (scan.blobs.map (·.digest)).Nodup
  pending : ∀ entry ∈ phase.pending, entry ∈ scan.evictions
  deleting : ∀ d ∈ phase.deleting, d ∈ scan.selected
  removing : ∀ d now left, phase = .removing d now left → d ∉ recent.blobs

def Collector.Sound : Collector → Prop
  | .idle => True
  | .scanning scan phase => scan.WellScanned ∧ phase.Reads scan
  | .applying scan recent phase => Applies scan recent phase

/-! ## The invariant of the system -/

structure Inv (cfg : Config) (s : State) : Prop where
  locks : ∀ id, s.HoldsLocks id
  served : ∀ id, (s.jobs id).Served cfg.serialize
  /-- A server's collections are number 0. -/
  alone : cfg.serialize = true → ∀ id, s.collectors id ≠ .idle → id = 0
  batch : ∀ id, (s.collectors id).InBatch →
    s.mutation = some (.collector id) ∧ (cfg.serialize = true → s.writes = some (.collector id))
  sound : ∀ id, (s.collectors id).Sound

/-- What a publication has read back is there until it is over. -/
def Checked (s : State) : Prop :=
  ∀ id left goal, s.jobs id = .checking left goal →
    ∀ d ∈ goal.digests, d ∈ left.map (·.1) ∨ s.store.hasBlob d = true

theorem Inv.init (cfg : Config) (store : Store) : Inv cfg (.init store) where
  locks := fun _ => ⟨False.elim, False.elim⟩
  served := fun _ => trivial
  alone := fun _ _ hne => absurd rfl hne
  batch := fun _ => False.elim
  sound := fun _ => trivial

theorem Inv.job_step {cfg : Config} {s t : State} (hi : Inv cfg s) {event : Event} {id : Nat}
    (h : JobStep cfg s event t id) : Inv cfg t where
  locks := fun other => by
    by_cases he : other = id
    · rw [he]
      exact h.locks (hi.locks id)
    · have hne : Holder.job other ≠ .job id := by simpa using he
      constructor
      all_goals rw [h.others other he]
      · exact fun hm => h.mutation.other hne ((hi.locks other).mutation hm)
      · exact fun hl => h.writes.other hne ((hi.locks other).writes hl)
  served := fun other => by
    by_cases he : other = id
    · rw [he]
      exact h.served (hi.served id)
    · rw [h.others other he]
      exact hi.served other
  alone := by
    rw [h.collectors]
    exact hi.alone
  batch := fun other hb => by
    rw [h.collectors] at hb
    obtain ⟨hm, hw⟩ := hi.batch other hb
    exact ⟨h.mutation.other (by simp) hm, fun hs => h.writes.other (by simp) (hw hs)⟩
  sound := by
    rw [h.collectors]
    exact hi.sound

theorem nodup_found {listed : List GcBlob} {digest : Text} {left : List Text} {found : Option GcBlob}
    (hf : ∀ b ∈ found, b.digest = digest) (h : (listed.map (·.digest) ++ digest :: left).Nodup) :
    ((listed ++ found.toList).map (·.digest) ++ left).Nodup := by
  cases found with
  | none =>
    simp only [Option.toList_none, List.append_nil]
    exact h.sublist ((List.sublist_cons_self _ _).append_left _)
  | some b =>
    simpa [hf b rfl] using h

theorem ScanPhase.Reads.missed {scan : Scan} {phase next : ScanPhase} (h : phase.Reads scan)
    (hnext : phase.missed = some next) : next.Reads scan := by
  cases phase with
  | rotating => cases hnext; exact h
  | reading => cases hnext; exact h
  | listingBlobs =>
    cases hnext
    have hblobs : scan.blobs = [] := h
    rw [ScanPhase.Reads, hblobs]
    exact List.nodup_nil
  | blobShards left found =>
    cases left with
    | nil => cases hnext
    | cons shard left =>
      cases hnext
      obtain ⟨hblobs, hleft, hfound, hnot⟩ := h
      exact ⟨hblobs, hleft.of_cons, hfound, fun d hd hmem => hnot d hd (List.mem_cons_of_mem _ hmem)⟩
  | blobs left => cases hnext
  | listing dir => cases hnext; exact ⟨h, fun _ hp => absurd hp List.not_mem_nil⟩
  | shards dir left found =>
    cases left with
    | nil => cases hnext
    | cons shard left => cases hnext; exact h
  | records dir left => cases hnext

/-- No blob is in two subdirectories. -/
theorem nodup_listed {keys found order left : List Text} {shard : Text} (hk : keys.Nodup)
    (hp : order.Perm (keys.filter (·.take 2 == shard))) (hleft : (shard :: left).Nodup) (hfound : found.Nodup)
    (hnot : ∀ d ∈ found, d.take 2 ∉ shard :: left) :
    (found ++ order).Nodup ∧ ∀ d ∈ found ++ order, d.take 2 ∉ left := by
  have horder : ∀ d ∈ order, d.take 2 = shard := fun d hd => beq_iff_eq.1 (List.mem_filter.1 (hp.mem_iff.1 hd)).2
  refine ⟨List.nodup_append'.2 ⟨hfound, hp.nodup_iff.2 (hk.filter _), fun d hd ho => ?_⟩, fun d hd hmem => ?_⟩
  · exact hnot d hd (horder d ho ▸ List.mem_cons_self)
  · rcases List.mem_append.1 hd with hd | hd
    · exact hnot d hd (List.mem_cons_of_mem _ hmem)
    · exact (List.nodup_cons.1 hleft).1 (horder d hd ▸ hmem)

/-- A collection's own bookkeeping. -/
theorem Collector.Sound.step {cfg : Config} {s t : State} {event : Event} {id : Nat} (hs : (s.collectors id).Sound)
    (h : Collects cfg s event id t) : (t.collectors id).Sound := by
  have hself : ∀ collector : Collector, collector.Sound → (Function.update s.collectors id collector id).Sound :=
    fun collector h => by rwa [Function.update_self]
  cases h with
  | begun options now phase _ hc _ hp =>
    refine hself _ ⟨⟨by simp, by simp⟩, ?_⟩
    rcases hp with ⟨rfl, -⟩ | rfl <;> rfl
  | rotated scan hc => rw [hc] at hs; exact hself _ hs
  | readUses scan hc => rw [hc] at hs; exact hself _ ⟨⟨hs.1.listed, hs.1.kinds⟩, hs.2⟩
  | enteredBlobs scan shards hc hn =>
    rw [hc] at hs
    exact hself _ ⟨hs.1, hs.2, hn, List.nodup_nil, fun _ hd => absurd hd List.not_mem_nil⟩
  | listedBlobs scan shard left found order hc hp =>
    rw [hc] at hs
    obtain ⟨hscan, hb, hleft, hfound, hnot⟩ := hs
    exact hself _ ⟨hscan, hb, hleft.of_cons, nodup_listed s.store.blobs.nodupKeys hp hleft hfound hnot⟩
  | foundBlobs scan found hc =>
    rw [hc] at hs
    obtain ⟨hscan, hb, -, hfound, -⟩ := hs
    refine hself _ ⟨hscan, ?_⟩
    show (scan.blobs.map (·.digest) ++ found).Nodup
    rw [hb]
    exact hfound
  | readBlob scan digest left found hc hf =>
    rw [hc] at hs
    exact hself _ ⟨⟨hs.1.listed, hs.1.kinds⟩, nodup_found hf hs.2⟩
  | readBlobs scan hc =>
    rw [hc] at hs
    exact hself _ ⟨hs.1, by simpa [ScanPhase.Reads] using hs.2⟩
  | enteredRecords scan dir shards hc =>
    rw [hc] at hs
    exact hself _ hs
  | listedRecords scan dir shard left found order hc hp =>
    rw [hc] at hs
    exact hself _ hs
  | foundRecords scan dir found hc =>
    rw [hc] at hs
    exact hself _ ⟨⟨fun x hx => List.mem_append_left _ (hs.1.listed x hx), hs.1.kinds⟩, hs.2,
      fun path hpath => List.mem_append_right _ hpath⟩
  | overlooked scan phase next _ hc hnext =>
    rw [hc] at hs
    exact hself _ ⟨hs.1, hs.2.missed hnext⟩
  | readRecord scan dir left path modifiedMs hc hm =>
    rw [hc] at hs
    obtain ⟨hscan, hn, hl⟩ := hs
    refine hself _ ⟨⟨fun x hx => ?_, fun x hx => ?_⟩, hn, fun p hp => hl p (List.mem_of_mem_erase hp)⟩
    · rcases List.mem_append.1 hx with hx | hx
      · exact hscan.listed x hx
      · obtain ⟨r, -, rfl⟩ := List.mem_map.1 hx
        exact hl path hm
    · rcases List.mem_append.1 hx with hx | hx
      · exact hscan.kinds x hx
      · obtain ⟨r, hr, rfl⟩ := List.mem_map.1 hx
        exact Store.directory_of_mem hr
  | readRecords scan dir hc =>
    rw [hc] at hs
    cases dir with
    | actions => exact hself _ ⟨hs.1, hs.2.1⟩
    | declared => exact hself _ ⟨hs.1, hs.2.1⟩
    | archives =>
      refine hself _ ?_
      rw [State.nextDirectory]
      split
      · trivial
      · exact ⟨hs.1, hs.2.1, fun _ he => he, by simp [ApplyPhase.deleting], by simp⟩
  | batchBegun scan recent failing phase phase' hf hc hb hb' hp hd hr hm hw =>
    rw [hc] at hs
    exact hself _ ⟨hs.scanned, hs.nodup, hp ▸ hs.pending, hd ▸ hs.deleting, fun d now left he => absurd he (hr d now left)⟩
  | batchEnded scan recent phase phase' hc hb hp hd =>
    rw [hc] at hs
    refine hself _ ⟨hs.scanned, hs.nodup, hp ▸ hs.pending, hd ▸ hs.deleting, ?_⟩
    rintro d now left rfl
    exact absurd trivial hb
  | evicted scan recent path units now left _ hc =>
    rw [hc] at hs
    exact hself _ ⟨hs.scanned, hs.nodup, fun e he => hs.pending e (List.mem_cons_of_mem _ he), hs.deleting, by simp⟩
  | evictedAll scan recent hc =>
    rw [hc] at hs
    exact hself _ ⟨hs.scanned, hs.nodup, by simp [ApplyPhase.pending], fun _ hd => hd, by simp⟩
  | spared scan recent digest now left hc =>
    rw [hc] at hs
    exact hself _ ⟨hs.scanned, hs.nodup, hs.pending, fun d hd => hs.deleting d (List.mem_cons_of_mem _ hd), by simp⟩
  | removing scan recent digest now left hc hd =>
    rw [hc] at hs
    refine hself _ ⟨hs.scanned, hs.nodup, hs.pending, hs.deleting, ?_⟩
    rintro d now left ⟨⟩
    exact hd
  | removed scan recent digest now left _ hc =>
    rw [hc] at hs
    exact hself _ ⟨hs.scanned, hs.nodup, hs.pending, fun d hd => hs.deleting d (List.mem_cons_of_mem _ hd), by simp⟩
  | freedAll scan recent hc =>
    rw [hc] at hs
    exact hself _ ⟨hs.scanned, hs.nodup, hs.pending, by simp [ApplyPhase.deleting], by simp⟩
  | compacted scan recent hc => exact hself _ trivial
  | abandoned => exact hself _ trivial

/-- A collection in a batch has come there with the batch's locks. -/
theorem Collects.batch {cfg : Config} {s t : State} {event : Event} {id : Nat} (h : Collects cfg s event id t)
    (hb : (t.collectors id).InBatch) :
    ((s.collectors id).InBatch ∧ t.mutation = s.mutation ∧ t.writes = s.writes) ∨
      t.mutation = some (.collector id) ∧ (cfg.serialize = true → t.writes = some (.collector id)) := by
  have hself : ∀ collector : Collector, (Function.update s.collectors id collector id).InBatch → collector.InBatch :=
    fun collector h => by rwa [Function.update_self] at h
  cases h with
  | batchBegun => exact .inr ⟨rfl, fun hs => if_pos hs⟩
  | batchEnded _ _ _ _ _ hb' => exact absurd (hself _ hb) hb'
  | evicted scan recent path units now left _ hc => exact .inl ⟨by rw [hc]; trivial, rfl, rfl⟩
  | spared scan recent digest now left hc => exact .inl ⟨by rw [hc]; trivial, rfl, rfl⟩
  | removing scan recent digest now left hc => exact .inl ⟨by rw [hc]; trivial, rfl, rfl⟩
  | removed scan recent digest now left _ hc => exact .inl ⟨by rw [hc]; trivial, rfl, rfl⟩
  | readRecords scan dir =>
    have hin := hself _ hb
    cases dir with
    | actions => exact hin.elim
    | declared => exact hin.elim
    | archives =>
      simp only [State.nextDirectory] at hin
      split at hin <;> exact hin.elim
  | _ => exact (hself _ hb).elim

/-- The first step of a collection is its beginning. -/
theorem Collects.begins {cfg : Config} {s t : State} {event : Event} {id : Nat} (h : Collects cfg s event id t)
    (hidle : s.collectors id = .idle) :
    (∃ options now, event = .collect id options now) ∧ (cfg.serialize = true → id = 0) := by
  cases h with
  | begun options now _ he _ hserver => exact ⟨⟨options, now, he⟩, hserver⟩
  | abandoned hne => exact absurd hidle hne
  | rotated _ hc | readUses _ hc | enteredBlobs _ _ hc | listedBlobs _ _ _ _ _ hc | foundBlobs _ _ hc
  | readBlob _ _ _ _ hc | readBlobs _ hc | enteredRecords _ _ _ hc | listedRecords _ _ _ _ _ _ hc | foundRecords _ _ _ hc
  | overlooked _ _ _ _ hc | readRecord _ _ _ _ _ hc | readRecords _ _ hc | batchBegun _ _ _ _ _ _ hc
  | batchEnded _ _ _ _ hc | evicted _ _ _ _ _ _ _ hc | evictedAll _ _ hc | spared _ _ _ _ _ hc
  | removing _ _ _ _ _ hc | removed _ _ _ _ _ _ hc | freedAll _ _ hc | compacted _ _ hc =>
    rw [hidle] at hc
    cases hc

theorem Inv.collector_step {cfg : Config} {s t : State} (hi : Inv cfg s) {event : Event} {id : Nat}
    (h : Collects cfg s event id t) : Inv cfg t where
  locks := fun other => by
    constructor
    all_goals rw [h.jobs_eq]
    · exact fun hm => (h.locks (by simp)).1 ((hi.locks other).mutation hm)
    · exact fun hl => (h.locks (by simp)).2 ((hi.locks other).writes hl)
  served := fun other => by
    rw [h.jobs_eq]
    exact hi.served other
  alone := fun hs other hne => by
    by_cases he : other = id
    · subst he
      by_cases hidle : s.collectors other = .idle
      · exact (h.begins hidle).2 hs
      · exact hi.alone hs other hidle
    · rw [h.others he] at hne
      exact hi.alone hs other hne
  batch := fun other hb => by
    by_cases he : other = id
    · subst he
      rcases h.batch hb with ⟨hin, hm, hw⟩ | hlocked
      · rw [hm, hw]
        exact hi.batch other hin
      · exact hlocked
    · rw [h.others he] at hb
      obtain ⟨hm, hw⟩ := hi.batch other hb
      have hne : Holder.collector other ≠ .collector id := by simpa using he
      have hlocks := h.locks hne
      exact ⟨hlocks.1 hm, fun hs => hlocks.2 (hw hs)⟩
  sound := fun other => by
    by_cases he : other = id
    · subst he
      exact (hi.sound other).step h
    · rw [h.others he]
      exact hi.sound other

theorem Inv.step {cfg : Config} {s t : State} (hi : Inv cfg s) {event : Event} (h : State.Step cfg s event t) :
    Inv cfg t := by
  rcases step_cases h with ⟨id, hj⟩ | ⟨id, hc⟩
  · exact hi.job_step hj
  · exact hi.collector_step hc

/-! ## Publications that read their blobs back -/

theorem Checked.init (store : Store) : Checked (.init store) := fun _ _ _ h => by cases h

theorem mem_blobsToCheck {goal : Record} {d : Text} (h : d ∈ goal.digests) :
    d ∈ (blobsToCheck goal).map (·.1) := by
  cases goal <;> simpa [Record.digests, blobsToCheck, List.map_map, Function.comp_def] using h

/-- **What was read back stays**, where no put takes a blob for a corrupt one:
a collection needs the lock that the publication has. -/
theorem Checked.step {cfg : Config} {s t : State} {event : Event} (hi : Inv cfg s) (hc : Checked s)
    (h : State.Step cfg s event t) (hreads : ∀ id, event ≠ .misread id) : Checked t := by
  intro id left goal hj d hd
  rcases step_cases h with ⟨job, hjob⟩ | ⟨collector, hcol⟩
  · have hkept : ∀ d, s.store.hasBlob d = true → t.store.hasBlob d = true :=
      fun d hb => (hjob.blobs d hb).resolve_right fun hm => hreads job hm.1
    by_cases he : id = job
    · subst he
      rcases hjob.checked left goal hj with ⟨-, rfl⟩ | ⟨digest, len, hj', hb⟩
      · exact .inl (mem_blobsToCheck hd)
      · rcases hc id _ _ hj' d hd with hd | hd
        · rcases List.mem_cons.1 hd with rfl | hd
          · exact .inr (hkept _ hb)
          · exact .inl hd
        · exact .inr (hkept d hd)
    · rw [hjob.others id he] at hj
      exact (hc id left goal hj d hd).imp_right (hkept d)
  · rw [hcol.jobs_eq] at hj
    refine (hc id left goal hj d hd).imp_right fun hb => ?_
    by_contra hn
    -- a publication under way has `writes`, which the collection needs to remove
    obtain ⟨-, scan, recent, now, left', hcol⟩ := hcol.removing_of_gone hb (Bool.not_eq_true _ ▸ hn)
    have hserialize : cfg.serialize = true := by simpa [hj, Job.Served] using hi.served id
    have hwrites := (hi.locks id).writes (by rw [hj]; trivial)
    have := (hi.batch collector (by rw [hcol]; trivial)).2 hserialize
    rw [hwrites] at this
    cases this

end Bellows.Collect
