/-
Candidates, and a server's collections.

What shelters a candidate that no scan has seen is the journal (`Noted`): its
publication, whole before the next batch begins, leaves a line there, and the
batch's refresh notes the candidate's blobs. A server reads the blobs back
under the lock that its batches need, so none is missing from then on. All of
this rests on nothing failing halfway (`Faultless`): a refresh that cannot
read an index notes the uses and not the blobs, a candidate whose line is not
written is not noted at all, and a put that cannot read a blob removes it.
-/
import Bellows.Collect.Complete
import Bellows.Collect.Shelter

namespace Bellows.Collect

open Bellows.Core Transition

/-! ## What a collection rests on -/

/-- Nothing fails without stopping what failed, and no publication stops
between its index and its line in the journal. -/
structure Faultless (s : State) (event : Event) : Prop where
  reads : ∀ id failing, event = .passOver id failing → ∀ key ∈ failing, s.store.actions.lookup key = none
  sees : ∀ id, event ≠ .overlook id
  verifies : ∀ id, event ≠ .misread id
  announces : ∀ id, event = .giveUp id → ∀ locked c handle, s.jobs id ≠ .announcing locked c handle
  appends : ∀ id told, event ≠ .cutShort id told

/-- No collection begins while another one is under way. -/
def TakesTurns (s : State) (event : Event) : Prop :=
  ∀ id options now, event = .collect id options now → ∀ other, other ≠ id → s.collectors other = .idle

/-- Between its rotation and its end, and not a dry run. -/
def Collector.Heeds : Collector → Prop
  | .idle => False
  | .scanning scan phase => scan.options.dryRun = false ∧ phase ≠ .rotating
  | .applying _ _ _ => True

theorem Collector.shelters_of_not_heeds {collector : Collector} (h : ¬ collector.Heeds) (r : Record) :
    collector.Shelters r := by
  cases collector with
  | idle => trivial
  | scanning scan phase =>
    cases hdry : scan.options.dryRun with
    | true => exact .inl hdry
    | false =>
      have hphase : phase = .rotating := by
        by_contra hne
        exact h ⟨hdry, hne⟩
      rw [hphase]
      exact .inr (.inl trivial)
  | applying scan recent phase => exact absurd trivial h

theorem Collector.heeds_of_used {collector : Collector} {use : Text × Text} (h : use ∈ collector.recent.uses) :
    collector.Heeds := by
  cases collector with
  | idle => cases h
  | scanning scan phase => cases h
  | applying scan recent phase => trivial

/-! ## Noted candidates -/

/-- The next lines, or the ones already read, tell the collection of the
candidate. -/
def Noted (s : State) (id : Nat) (c : ActionCandidate) : Prop :=
  (∀ d ∈ (Record.candidate c).digests, d ∈ (s.collectors id).recent.blobs) ∨
    ¬ (s.collectors id).InBatch ∧
      ((∃ use ∈ (s.collectors id).recent.unread s.store, use.staticKey = c.staticKey) ∨
        ∃ job locked handle, s.jobs job = .announcing locked c handle ∧
          ∀ g, handle = some g → g = s.store.journal.generation)

section

variable {cfg : Config} {s t : State} {event : Event} {id : Nat} {c : ActionCandidate}

theorem Noted.job_step (hoffset : (s.collectors id).recent.offset ≤ s.store.journal.lines.length) (hwhole : Whole s.store)
    (hu : Faultless s event) {job : Nat} (h : JobStep cfg s event t job) (hn : Noted s id c) : Noted t id c := by
  unfold Noted at hn ⊢
  rw [h.collectors]
  refine hn.imp_right (And.imp_right ?_)
  have hlines : ∀ use, use ∈ s.store.journal.lines.drop (s.collectors id).recent.offset →
      use ∈ t.store.journal.lines.drop (s.collectors id).recent.offset := fun use hu =>
    (h.lines.drop (s.collectors id).recent.offset).subset hu
  rintro (⟨use, hu, hk⟩ | ⟨other, locked, handle, hj, hg⟩)
  · exact .inl ⟨use, hlines use hu, hk⟩
  by_cases he : other = job
  · subst he
    rcases h.announces locked c handle hj with ha | he | ⟨told, he⟩
    · cases handle with
      | none =>
        exact .inr ⟨other, locked, _, ha.opens rfl, fun g hg' => (Option.some.inj hg').symm⟩
      | some g =>
        obtain ⟨use, hu, hk, -⟩ := ha.appends (by rw [hg g rfl]) hwhole
        refine .inl ⟨use, ?_, hk⟩
        rw [Recent.unread, hu, List.drop_append_of_le_length hoffset]
        exact List.mem_append_right _ (List.mem_singleton_self _)
    · exact absurd hj (hu.announces other he locked c handle)
    · exact absurd he (hu.appends other told)
  · exact .inr ⟨other, locked, handle, by rw [h.others other he, hj], fun g hg' => by rw [h.generation, hg g hg']⟩

/-- What a put publishes its job announces. -/
theorem Publishes.noted (hi : Inv cfg s) {job : Nat} (h : JobStep cfg s event t job)
    (hp : Publishes cfg s t job (.candidate c)) : Noted t id c := by
  obtain ⟨locked, hj⟩ := hp.announces c rfl
  refine .inr ⟨fun hb => ?_, .inr ⟨job, locked, none, hj, nofun⟩⟩
  rw [h.collectors] at hb
  have hm := (hi.batch id hb).1
  rw [hp.unlocked] at hm
  cases hm

/-- A step that leaves alone what tells of a candidate. -/
theorem Noted.of_eq (hn : Noted s id c) (hr : (t.collectors id).recent = (s.collectors id).recent)
    (hb : (t.collectors id).InBatch → (s.collectors id).InBatch) (hj : t.store.journal = s.store.journal)
    (hjobs : t.jobs = s.jobs) : Noted t id c := by
  unfold Noted Recent.unread at hn ⊢
  rw [hr, hj, hjobs]
  exact hn.imp_right (And.imp_left fun hs ht => hs (hb ht))

/-- The same, of a step of the collection that touches no more than that. -/
theorem Noted.of_collector (hn : Noted s id c) {collector : Collector} (htid : t.collectors id = collector)
    (hr : collector.recent = (s.collectors id).recent) (hb : collector.InBatch → (s.collectors id).InBatch)
    (hj : t.store.journal = s.store.journal) (hjobs : t.jobs = s.jobs) : Noted t id c := by
  subst htid
  exact hn.of_eq hr hb hj hjobs

theorem nextDirectory_recent (scan : Scan) (dir : Directory) : (State.nextDirectory scan dir).recent = .empty ∧
    ¬ (State.nextDirectory scan dir).InBatch := by
  cases dir with
  | actions => exact ⟨rfl, False.elim⟩
  | declared => exact ⟨rfl, False.elim⟩
  | archives =>
    rw [State.nextDirectory]
    split <;> exact ⟨rfl, False.elim⟩

/-- An index that is there can be read. -/
theorem Faultless.not_mem_failing (hu : Faultless s event) {failing : List Text}
    (hf : failing = [] ∨ event = .passOver id failing) (hs : s.store.Holds (.candidate c)) : c.staticKey ∉ failing := by
  rcases hf with rfl | he
  · exact List.not_mem_nil
  · intro hmem
    obtain ⟨index, hl, -⟩ := Store.holds_candidate.1 hs
    rw [hu.reads id failing he _ hmem] at hl
    cases hl

/-- **A candidate stays noted** while the plan is applied; as a batch begins,
its blobs are read. -/
theorem Noted.collects (hi : Inv cfg s) (hu : Faultless s event) (h : Collects cfg s event id t)
    (ht : t.store.Holds (.candidate c)) (hn : Noted s id c) :
    Noted t id c ∨ (∀ r, (t.collectors id).Shelters r) ∧ (t.collectors id).recent.uses = [] := by
  have hself (collector : Collector) : Function.update s.collectors id collector id = collector :=
    Function.update_self id collector s.collectors
  have hforgets (collector : Collector) (hsh : ∀ r, collector.Shelters r) (huses : collector.recent.uses = []) :
      (∀ r, (Function.update s.collectors id collector id).Shelters r) ∧
        (Function.update s.collectors id collector id).recent.uses = [] := by
    rw [hself]
    exact ⟨hsh, huses⟩
  have hs := h.holds _ ht
  cases h with
  | begun options now phase _ hc _ hp =>
    exact .inl (hn.of_collector (hself _) (by rw [hc]; rfl) False.elim rfl rfl)
  | rotated scan hc => exact .inr (hforgets _ (fun r => .inr (.inl trivial)) rfl)
  | compacted scan recent hc => exact .inr (hforgets _ (fun r => trivial) rfl)
  | abandoned hc => exact .inr (hforgets _ (fun r => trivial) rfl)
  | readRecords scan dir hc =>
    obtain ⟨hr, hb⟩ := nextDirectory_recent scan dir
    refine .inl (hn.of_collector (hself _) ?_ (fun h => absurd h hb) rfl rfl)
    rw [hr, hc]
    rfl
  | batchBegun scan recent failing phase phase' hf hc hb hb' hp hd hrem hm hw =>
    have hblobs := (Recent.refresh_spec cfg.validators failing recent s.store).2.2.2
    rw [Noted, hc] at hn
    refine .inl (.inl ?_)
    show ∀ d ∈ (Record.candidate c).digests, d ∈ (Function.update s.collectors id _ id).recent.blobs
    rw [hself]
    rcases hn with hn | ⟨-, ⟨use, hu', hk⟩ | ⟨job, locked, handle, hj, -⟩⟩
    · exact fun d hd => hblobs d (hn d hd)
    · exact Recent.refresh_notes hu' hk (hu.not_mem_failing hf hs) ht
    · have := (hi.locks job).mutation (by rw [hj]; trivial)
      rw [hm] at this
      cases this
  | batchEnded scan recent phase phase' hc hb hp hd =>
    exact .inl (hn.of_collector (hself _) (by rw [hc]; rfl) (fun h => absurd h hb) rfl rfl)
  | evicted scan recent path units now left _ hc =>
    exact .inl (hn.of_collector (hself _) (by rw [hc]; rfl) (fun _ => by rw [hc]; trivial)
      (Store.evictFrom_shrinks s.store recent.uses path units).journal rfl)
  | readUses scan hc | enteredBlobs scan _ hc | listedBlobs scan _ _ _ _ hc | foundBlobs scan _ hc
  | readBlob scan _ _ _ hc | readBlobs scan hc | enteredRecords scan _ _ hc | listedRecords scan _ _ _ _ _ hc
  | foundRecords scan _ _ hc | overlooked scan _ _ _ hc | readRecord scan _ _ _ _ hc | evictedAll scan recent hc
  | freedAll scan recent hc =>
    exact .inl (hn.of_collector (hself _) (by rw [hc]; rfl) False.elim rfl rfl)
  | spared scan recent digest now left hc | removing scan recent digest now left hc
  | removed scan recent digest now left _ hc =>
    exact .inl (hn.of_collector (hself _) (by rw [hc]; rfl) (fun _ => by rw [hc]; trivial) rfl rfl)

/-- A use read since the plan was made notes the candidate. -/
theorem Collects.used (hu : Faultless s event) (h : Collects cfg s event id t) (ht : t.store.Holds (.candidate c))
    (huse : (c.staticKey, c.actionKey) ∈ (t.collectors id).recent.uses) :
    (c.staticKey, c.actionKey) ∈ (s.collectors id).recent.uses ∨ Noted t id c := by
  have hself (collector : Collector) : Function.update s.collectors id collector id = collector :=
    Function.update_self id collector s.collectors
  have hs := h.holds _ ht
  cases h with
  | batchBegun scan recent failing phase phase' hf hc hb hb' hp hd hrem hm hw =>
    have huses := (Recent.refresh_spec cfg.validators failing recent s.store).2.2.1
    replace huse : (c.staticKey, c.actionKey) ∈ (Function.update s.collectors id _ id).recent.uses := huse
    rw [hself, Collector.recent, huses] at huse
    rw [hc]
    refine (List.mem_append.1 huse).imp_right fun huse => .inl ?_
    show ∀ d ∈ (Record.candidate c).digests, d ∈ (Function.update s.collectors id _ id).recent.blobs
    rw [hself]
    obtain ⟨use, huse, hk⟩ := List.mem_map.1 huse
    exact Recent.refresh_notes huse (congrArg Prod.fst hk) (hu.not_mem_failing hf hs) ht
  | readRecords scan dir hc =>
    replace huse : _ ∈ (Function.update s.collectors id (State.nextDirectory scan dir) id).recent.uses := huse
    rw [hself, (nextDirectory_recent scan dir).1] at huse
    cases huse
  | batchEnded scan recent _ _ hc | evicted scan recent _ _ _ _ _ hc | evictedAll scan recent hc
  | spared scan recent _ _ _ hc | removing scan recent _ _ _ hc | removed scan recent _ _ _ _ hc
  | freedAll scan recent hc =>
    rw [hc]
    replace huse : _ ∈ (Function.update s.collectors id (.applying scan recent _) id).recent.uses := huse
    rw [hself] at huse
    exact .inl huse
  | _ =>
    replace huse : _ ∈ (Function.update s.collectors id _ id).recent.uses := huse
    rw [hself] at huse
    cases huse

end

/-! ## The invariant of candidates -/

structure CandidateInv (s : State) : Prop where
  one : ∀ id other, s.collectors id ≠ .idle → s.collectors other ≠ .idle → id = other
  offset : ∀ id, (s.collectors id).recent.offset ≤ s.store.journal.lines.length
  whole : ∀ id, (s.collectors id).Heeds → Whole s.store
  covered : ∀ id c, s.store.Holds (.candidate c) → (s.collectors id).Shelters (.candidate c) ∨ Noted s id c
  used : ∀ id c, s.store.Holds (.candidate c) → (c.staticKey, c.actionKey) ∈ (s.collectors id).recent.uses → Noted s id c

theorem CandidateInv.init (store : Store) : CandidateInv (.init store) where
  one := fun _ _ h => absurd rfl h
  offset := fun _ => Nat.zero_le _
  whole := fun _ => False.elim
  covered := fun _ _ _ => .inl trivial
  used := fun _ _ _ h => by cases h

section

variable {cfg : Config} {s t : State} {event : Event} {id : Nat}

theorem CandidateInv.job_step (hi : Inv cfg s) (hc : CandidateInv s) (hu : Faultless s event) {job : Nat}
    (h : JobStep cfg s event t job) : CandidateInv t where
  one := by
    rw [h.collectors]
    exact hc.one
  offset := fun id => by
    rw [h.collectors]
    exact (hc.offset id).trans h.lines.length_le
  whole := fun id hheeds => by
    rw [h.collectors] at hheeds
    exact (h.whole (hc.whole id hheeds)).resolve_right fun ⟨told, he⟩ => hu.appends job told he
  covered := fun id c ht => by
    rw [h.collectors]
    by_cases hheeds : (s.collectors id).Heeds
    · rcases h.holds _ ht with hs | ⟨-, hp⟩
      · exact (hc.covered id c hs).imp_right (Noted.job_step (hc.offset id) (hc.whole id hheeds) hu h)
      · exact .inr (hp.noted hi h)
    · exact .inl (Collector.shelters_of_not_heeds hheeds _)
  used := fun id c ht huse => by
    rw [h.collectors] at huse
    rcases h.holds _ ht with hs | ⟨-, hp⟩
    · exact (hc.used id c hs huse).job_step (hc.offset id) (hc.whole id (Collector.heeds_of_used huse)) hu h
    · exact hp.noted hi h

/-- While one collection takes a step, no other is under way. -/
theorem CandidateInv.alone (hc : CandidateInv s) (hturns : TakesTurns s event) (h : Collects cfg s event id t)
    {other : Nat} (hne : other ≠ id) : s.collectors other = .idle := by
  by_contra hother
  have hidle : s.collectors id = .idle := by
    by_contra hid
    exact hne (hc.one other id hother hid)
  obtain ⟨options, now, he⟩ := (h.begins hidle).1
  exact hother (hturns id options now he other hne)

theorem offset_collects (hc : (s.collectors id).recent.offset ≤ s.store.journal.lines.length)
    (h : Collects cfg s event id t) : (t.collectors id).recent.offset ≤ t.store.journal.lines.length := by
  have hself (collector : Collector) (n : Nat) (hle : collector.recent.offset ≤ n) :
      (Function.update s.collectors id collector id).recent.offset ≤ n := by rwa [Function.update_self]
  cases h with
  | batchBegun scan recent failing phase phase' hf hcol =>
    obtain ⟨hshrinks, ho, -, -⟩ := Recent.refresh_spec cfg.validators failing recent s.store
    refine hself _ _ ?_
    show (recent.refresh cfg.validators failing s.store).1.offset ≤ _
    rw [ho, hshrinks.journal]
  | evicted scan recent path units now left _ hcol =>
    rw [hcol] at hc
    refine hself _ _ ?_
    rw [(Store.evictFrom_shrinks s.store recent.uses path units).journal]
    exact hc
  | readRecords scan dir =>
    refine hself _ _ ?_
    rw [(nextDirectory_recent scan dir).1]
    exact Nat.zero_le _
  | batchEnded scan recent _ _ hcol | evictedAll scan recent hcol | spared scan recent _ _ _ hcol
  | removing scan recent _ _ _ hcol | removed scan recent _ _ _ _ hcol | freedAll scan recent hcol =>
    rw [hcol] at hc
    exact hself _ _ hc
  | _ => exact hself _ _ (Nat.zero_le _)

theorem Whole.rotate (s : Store) : Whole { s with journal := s.journal.rotate } := by
  unfold Whole Journal.rotate
  dsimp only
  split
  · next h => rw [Journal.file, h]; rfl
  · rfl

theorem whole_collects (hu : Faultless s event) (hc : (s.collectors id).Heeds → Whole s.store)
    (h : Collects cfg s event id t) (hheeds : (t.collectors id).Heeds) : Whole t.store := by
  have hself (collector : Collector) (h : (Function.update s.collectors id collector id).Heeds) : collector.Heeds := by
    rwa [Function.update_self] at h
  cases h with
  | begun options now phase _ _ _ hp =>
    obtain ⟨hdry, hphase⟩ := hself _ hheeds
    rcases hp with ⟨-, hd⟩ | hp
    · rw [hd] at hdry
      cases hdry
    · exact absurd hp hphase
  | rotated scan hcol => exact .rotate s.store
  | overlooked scan phase next he => exact absurd he (hu.sees id)
  | batchBegun scan recent failing phase phase' hf hcol =>
    exact .of_eq (Recent.refresh_spec cfg.validators failing recent s.store).1.journal (hc (by rw [hcol]; trivial))
  | evicted scan recent path units now left _ hcol =>
    exact .of_eq (Store.evictFrom_shrinks s.store recent.uses path units).journal (hc (by rw [hcol]; trivial))
  | compacted | abandoned => exact (hself _ hheeds).elim
  | readUses scan hcol | enteredBlobs scan _ hcol | listedBlobs scan _ _ _ _ hcol | foundBlobs scan _ hcol
  | readBlob scan _ _ _ hcol | readBlobs scan hcol | enteredRecords scan _ _ hcol | listedRecords scan _ _ _ _ _ hcol
  | foundRecords scan _ _ hcol | readRecord scan _ _ _ _ hcol =>
    exact hc (by rw [hcol]; exact ⟨(hself _ hheeds).1, nofun⟩)
  | readRecords scan dir hcol =>
    refine hc ?_
    rw [hcol]
    refine ⟨?_, nofun⟩
    have hnext := hself _ hheeds
    cases dir with
    | actions => exact hnext.1
    | declared => exact hnext.1
    | archives =>
      rw [State.nextDirectory] at hnext
      split at hnext
      · exact hnext.elim
      · next hdry => exact Bool.not_eq_true _ ▸ hdry
  | batchEnded scan recent _ _ hcol | evictedAll scan recent hcol | spared scan recent _ _ _ hcol
  | removing scan recent _ _ _ hcol | removed scan recent _ _ _ _ hcol | freedAll scan recent hcol =>
    exact hc (by rw [hcol]; trivial)

theorem CandidateInv.collects (hi : Inv cfg s) (hc : CandidateInv s) (hu : Faultless s event)
    (hturns : TakesTurns s event) (h : Collects cfg s event id t) : CandidateInv t := by
  have hidle {other : Nat} (hne : other ≠ id) : t.collectors other = .idle := by
    rw [h.others hne]
    exact hc.alone hturns h hne
  constructor
  · intro a b ha hb
    have hid {other : Nat} (hother : t.collectors other ≠ .idle) : other = id := by
      by_contra hne
      exact hother (hidle hne)
    rw [hid ha, hid hb]
  · intro other
    by_cases hne : other = id
    · subst hne
      exact offset_collects (hc.offset other) h
    · rw [hidle hne]
      exact Nat.zero_le _
  · intro other hheeds
    by_cases hne : other = id
    · subst hne
      exact whole_collects hu (hc.whole other) h hheeds
    · rw [hidle hne] at hheeds
      exact hheeds.elim
  · intro other c ht
    by_cases hne : other = id
    · subst hne
      have hs := h.holds _ ht
      have hnoted (hn : Noted s other c) : (t.collectors other).Shelters (.candidate c) ∨ Noted t other c :=
        (hn.collects hi hu h ht).symm.imp_left fun hall => hall.1 _
      rcases hc.covered other c hs with hsh | hn
      · rcases hsh.step (hi.sound other) h hs ht with hsh | ⟨c', he, huse⟩ | ho
        · exact .inl hsh
        · cases he
          exact hnoted (hc.used other c hs huse)
        · exact absurd ho.1 (hu.sees other)
      · exact hnoted hn
    · rw [hidle hne]
      exact .inl trivial
  · intro other c ht huse
    by_cases hne : other = id
    · subst hne
      rcases h.used hu ht huse with huse' | hn
      · refine ((hc.used other c (h.holds _ ht) huse').collects hi hu h ht).resolve_right fun hall => ?_
        rw [hall.2] at huse
        cases huse
      · exact hn
    · rw [hidle hne] at huse
      cases huse

theorem CandidateInv.step (hi : Inv cfg s) (hc : CandidateInv s) (hu : Faultless s event) (hturns : TakesTurns s event)
    (h : State.Step cfg s event t) : CandidateInv t := by
  rcases step_cases h with ⟨job, hj⟩ | ⟨id, h⟩
  · exact hc.job_step hi hu hj
  · exact hc.collects hi hu hturns h

/-- **No blob of a candidate is removed.** -/
theorem CandidateInv.not_mem_digests (hi : Inv cfg s) (hc : CandidateInv s) {scan : Scan} {recent : Recent} {d : Text}
    {now left : List Text} (hcol : s.collectors id = .applying scan recent (.removing d now left)) {c : ActionCandidate}
    (hs : s.store.Holds (.candidate c)) : d ∉ (Record.candidate c).digests := by
  intro hd
  rcases hc.covered id c hs with hsh | hn
  · exact not_mem_digests_of_removing (hi.sound id) hcol hsh hd
  · have hsound := hi.sound id
    rw [hcol] at hsound
    rw [Noted, hcol] at hn
    exact hsound.removing d now left rfl ((hn.resolve_right fun h => h.1 trivial) d hd)

end

/-! ## Candidates that stay complete -/

/-- The accepted candidates. -/
def AcceptedCandidate (v : Validators) (r : Record) : Prop := ∃ c, r = .candidate c ∧ v.candidate c = true

/-- Every candidate of an index that is read has all its blobs. -/
def CandidatesPresent (v : Validators) (store : Store) : Prop :=
  ∀ key index, (store.readCandidates v key).1 = some index → ∀ c ∈ index, store.AllPresent (.candidate c)

/-- The same of every accepted candidate, though another one in its index may
keep the index from being read. -/
def CandidatesComplete (v : Validators) (store : Store) : Prop := Complete (AcceptedCandidate v) store

theorem CandidatesComplete.present {v : Validators} {store : Store} (h : CandidatesComplete v store) :
    CandidatesPresent v store := by
  intro key index hr c hc
  obtain ⟨hv, -, hh⟩ := Store.readCandidates_eq_some hr hc
  exact h (.candidate c) ⟨c, rfl, hv⟩ hh

/-- A blob to remove is not one of a candidate that the collection has not
seen, or whose use it has read. -/
def SparesCandidates (v : Validators) (ms : List (Move State Event)) (s : State) (event : Event) : Prop :=
  ∀ id scan recent d now left, event = .advance id → s.collectors id = .applying scan recent (.removing d now left) →
    ∀ c, Unseen ms id (.candidate c) ∨ (c.staticKey, c.actionKey) ∈ recent.uses → v.candidate c = true →
      s.store.Holds (.candidate c) → d ∉ (Record.candidate c).digests

/-- **What a step must spare**: it puts no candidate whose blobs are not all
there, takes no blob of one for a corrupt copy, and removes none of one that
the collection does not know. -/
structure KeepsCandidates (v : Validators) (ms : List (Move State Event)) (s : State) (event : Event) : Prop where
  puts : PutsComplete v (AcceptedCandidate v) s event
  reads : ReadsSpare (AcceptedCandidate v) s event
  removals : SparesCandidates v ms s event

section

variable {cfg : Config} {ms : List (Move State Event)} {s t : State} {event : Event}

/-- A collection that spares what it does not know spares every candidate. -/
theorem SparesCandidates.removalsSpare {v : Validators} (h : SparesCandidates v ms s event) (hi : Inv cfg s)
    (hc : Covered ms s) : RemovalsSpare (AcceptedCandidate v) s event := by
  rintro id scan recent d now left he hcol r ⟨c, rfl, hv⟩ hh
  rcases hc id _ hh with hsh | hn | ⟨c', hc', huse⟩
  · exact not_mem_digests_of_removing (hi.sound id) hcol hsh
  · exact h id scan recent d now left he hcol c (.inl hn) hv hh
  · cases hc'
    rw [hcol] at huse
    exact h id scan recent d now left he hcol c (.inr huse) hv hh

theorem keepsCandidates_of_complete (h : State.Step cfg s event t) (ht : CandidatesComplete cfg.validators t.store) :
    KeepsCandidates cfg.validators ms s event :=
  ⟨ht.puts h, ht.reads h, fun id scan recent d now left he hcol c _ hv hh =>
    ht.removals h id scan recent d now left he hcol _ ⟨c, rfl, hv⟩ hh⟩

/-- **Candidates stay complete exactly as long as every step spares them.** -/
theorem candidatesComplete_iff (store : Store) (h₀ : CandidatesComplete cfg.validators store)
    (h : Run (State.Step cfg) (.init store) ms s) :
    (∀ m ∈ ms, CandidatesComplete cfg.validators m.post.store) ↔ Meets (KeepsCandidates cfg.validators) ms :=
  h.posts_iff_meets
    (fun ms s => Inv cfg s ∧ Covered ms s ∧ CandidatesComplete cfg.validators s.store)
    (fun s => CandidatesComplete cfg.validators s.store) (KeepsCandidates cfg.validators)
    ⟨Inv.init _ store, fun _ _ _ => .inl trivial, h₀⟩
    (fun _ _ ⟨_, _, hp⟩ => hp)
    (fun _ _ _ _ ⟨hi, hc, hp⟩ ht hk =>
      ⟨hi.step ht, hc.step hi ht, hp.step ht hk.puts hk.reads (hk.removals.removalsSpare hi hc)⟩)
    (fun _ _ _ _ _ ht hn hall => hn (keepsCandidates_of_complete ht hall))

/-- What a collection removes is no candidate's. -/
theorem faultless_complete_step (hi : Inv cfg s) (hc : CandidateInv s) (hu : Faultless s event)
    (h : State.Step cfg s event t) (hput : PutsComplete cfg.validators (AcceptedCandidate cfg.validators) s event)
    (hs : CandidatesComplete cfg.validators s.store) : CandidatesComplete cfg.validators t.store :=
  hs.step h hput (readsSpare_of_ne hu.verifies) (by
    rintro id scan recent d now left - hcol r ⟨c, rfl, -⟩ hh
    exact hc.not_mem_digests hi hcol hh)

end

/-! ## A server -/

/-- A server's store: batches run under `writes`. -/
def server (v : Validators) (maxCandidates : Nat) : Config := ⟨true, v, maxCandidates⟩

section

variable {v : Validators} {maxCandidates : Nat} {s t : State} {event : Event}

/-- Only wrappers put a candidate that was not checked. -/
theorem server_putsComplete (hi : Inv (server v maxCandidates) s) (hc : Checked s) :
    PutsComplete v (AcceptedCandidate v) s event := by
  rintro id now r - hgoal ⟨c, rfl, -⟩ -
  unfold Job.publishing at hgoal
  split at hgoal
  · next hj =>
    have hserved := hi.served id
    rw [hj, hgoal] at hserved
    cases hserved
  · next hj =>
    cases hgoal
    exact hc.allPresent hj
  · cases hgoal

/-- A server's collections wait for one another. -/
theorem server_takesTurns (hi : Inv (server v maxCandidates) s) (h : State.Step (server v maxCandidates) s event t) :
    TakesTurns s event := by
  rintro id options now rfl other hne
  by_contra hother
  have hzero := hi.alone rfl other hother
  unfold State.Step State.step State.collect at h
  dsimp only at h
  rw [if_pos ⟨rfl, fun hid => hne (hzero.trans hid.symm)⟩] at h
  cases h

end

/-- **A server's candidates stay complete** exactly as long as every step
spares them, which they do where nothing fails without stopping what failed.
Where no put takes a blob for a corrupt one, the collections alone decide. -/
theorem server_candidatesPresent (v : Validators) (maxCandidates : Nat) (store : Store) (h₀ : CandidatesComplete v store)
    {ms : List (Move State Event)} {s : State} (h : Run (State.Step (server v maxCandidates)) (.init store) ms s) :
    ((∀ m ∈ ms, CandidatesComplete v m.post.store) ↔ Meets (KeepsCandidates v) ms) ∧
      ((∀ m ∈ ms, ∀ id, m.label ≠ .misread id) →
        ((∀ m ∈ ms, CandidatesComplete v m.post.store) ↔ Meets (SparesCandidates v) ms)) ∧
      (Meets (KeepsCandidates v) ms ∨ (∀ m ∈ ms, Faultless m.pre m.label) →
        ∀ m ∈ ms, CandidatesPresent v m.post.store) := by
  have hiff := candidatesComplete_iff store h₀ h
  refine ⟨hiff, fun hreads => hiff.trans ⟨fun hk => hk.imp fun _ _ _ hk => hk.removals, fun hs => ?_⟩, ?_⟩
  · refine hs.imp fun _ m hm hs => ⟨?_, readsSpare_of_ne (hreads m hm), hs⟩
    obtain ⟨hi, hc⟩ := checked_of_run h hreads m hm
    exact server_putsComplete hi hc
  rintro (hkeeps | hfaultless) m hm
  · exact (hiff.2 hkeeps m hm).present
  · obtain ⟨-, -, -, hp⟩ := (h.posts_of
      (fun s => Inv (server v maxCandidates) s ∧ Checked s ∧ CandidateInv s ∧ CandidatesComplete v s.store) Faultless
      ⟨Inv.init _ store, Checked.init store, CandidateInv.init store, h₀⟩
      (fun _ _ _ ⟨hi, hchecked, hc, hp⟩ ht hu => ⟨hi.step ht, hchecked.step hi ht hu.verifies,
        hc.step hi hu (server_takesTurns hi ht) ht,
        faultless_complete_step hi hc hu ht (server_putsComplete hi hchecked) hp⟩)
      hfaultless).1 m hm
    exact hp.present

/-! ### A candidate published while its library is collected -/

def contentKey (digit : Char) : Text := List.replicate 64 digit

/-- Accepts every record, as if each key were the digest it stands for. -/
def permissive : Validators := ⟨fun _ => true, fun _ => true, fun _ => true⟩

/-- A library without warnings. -/
def library (staticKey actionKey : Text) (createdMs : Nat) : ActionCandidate where
  protocol := 6
  staticKey := staticKey
  actionKey := actionKey
  crateName := "serde".toList
  createdMs := createdMs
  files := []
  hostFiles := []
  env := []
  artifacts := [⟨"libserde.rlib".toList, contentKey 'a', false⟩]
  stdout := ⟨contentKey 'b', 0⟩
  stderr := ⟨contentKey 'b', 0⟩
  procMacros := []

def oldLibrary : ActionCandidate := library (contentKey '1') (contentKey '2') 0

def newLibrary : ActionCandidate := library (contentKey '3') (contentKey '4') 1000

def oldStore : Store where
  blobs := ((∅ : Assoc Text Blob).insert (contentKey 'a') ⟨10, 0, true⟩).insert (contentKey 'b') ⟨0, 0, true⟩
  actions := (∅ : Assoc Text (List ActionCandidate)).insert (contentKey '1') [oldLibrary]
  declared := ∅
  archives := ∅
  journal := ⟨0, none, []⟩

theorem oldStore_complete (r : Record) (h : oldStore.Holds r) : oldStore.AllPresent r := by
  cases r with
  | candidate c =>
    obtain ⟨index, hl, hc⟩ := Store.holds_candidate.1 h
    simp only [oldStore, Assoc.lookup_insert_eq_ite] at hl
    split at hl
    · cases hl
      rw [List.mem_singleton.1 hc]
      decide +kernel
    · cases hl
  | declared r => cases h
  | archive m => cases h

/-- A collection of `oldStore`, to nothing, up to its first batch. -/
def scanOldStore : List Event :=
  [.collect 0 ⟨0, false, none, none⟩ 2000, .advance 0, .advance 0, .enter 0 ["aa".toList, "bb".toList],
    .listBlobs 0 [contentKey 'a'], .listBlobs 0 [contentKey 'b'], .advance 0, .advance 0, .advance 0, .advance 0,
    .enter 0 ["11".toList], .listRecords 0 [.action (contentKey '1')], .advance 0,
    .readRecord 0 (.action (contentKey '1')) 0, .advance 0, .enter 0 [], .advance 0, .advance 0, .enter 0 [],
    .advance 0, .advance 0]

/-- The old library's index goes, the new library is published, and the blobs
that both have are spared. -/
def republish : List Event :=
  scanOldStore ++ List.replicate 4 (.advance 0) ++ [.start 0 (.storeCandidate newLibrary)] ++
    List.replicate 6 (.proceed 0 2500) ++ List.replicate 5 (.advance 0)

/-- A step that fails without stopping what failed, or stops a job. -/
def Event.fails : Event → Bool
  | .giveUp _ | .cutShort _ _ | .misread _ | .overlook _ | .passOver _ _ => true
  | _ => false

theorem faultless_of_not_fails {event : Event} (h : event.fails = false) (s : State) : Faultless s event where
  reads := fun id failing he => by rw [he] at h; cases h
  sees := fun id he => by rw [he] at h; cases h
  verifies := fun id he => by rw [he] at h; cases h
  announces := fun id he => by rw [he] at h; cases h
  appends := fun id told he => by rw [he] at h; cases h

/-- The run of events of which none is of a kind. -/
theorem exists_run (cfg : Config) (kind : Event → Bool) (p : State → Bool) (events : List Event)
    (h : (events.foldlM (fun (s : State) event => if kind event = false then s.step cfg event else none)
      (State.init oldStore)).any p = true) :
    ∃ ms s, Run (State.Step cfg) (.init oldStore) ms s ∧ (∀ m ∈ ms, kind m.label = false) ∧ p s = true := by
  obtain ⟨s, hs, hp⟩ := (Option.any_eq_true _ _).1 h
  obtain ⟨ms, hr, hkind⟩ := Run.foldlM_checked (State.step cfg) (fun _ event => kind event = false) _ _ hs
  exact ⟨ms, s, hr, hkind, hp⟩

theorem server_candidatesPresent_republish : ∃ ms s, Run (State.Step (server permissive 8)) (.init oldStore) ms s ∧
    (s.store.readCandidates permissive (contentKey '3')).1 = some [newLibrary] ∧
      ((∀ m ∈ ms, CandidatesComplete permissive m.post.store) ↔ Meets (KeepsCandidates permissive) ms) ∧
      ((∀ m ∈ ms, CandidatesComplete permissive m.post.store) ↔ Meets (SparesCandidates permissive) ms) ∧
      ∀ m ∈ ms, CandidatesPresent permissive m.post.store := by
  obtain ⟨ms, s, hr, hsteady, hread⟩ := exists_run (server permissive 8) Event.fails
    (fun s => decide ((s.store.readCandidates permissive (contentKey '3')).1 = some [newLibrary])) republish
    (by decide +kernel)
  have hfaultless := fun m hm => faultless_of_not_fails (hsteady m hm) m.pre
  obtain ⟨hkeeps, hspares, hpresent⟩ := server_candidatesPresent permissive 8 oldStore (fun r _ => oldStore_complete r) hr
  exact ⟨ms, s, hr, of_decide_eq_true hread, hkeeps, hspares fun m hm => (hfaultless m hm).verifies,
    hpresent (.inr hfaultless)⟩

/-! ### Candidates that dangle -/

/-- The old library is used again, and the refresh that notes it cannot read
its index: the library is spared, and its blobs are not. -/
def reuseUnread : List Event :=
  scanOldStore ++ [.start 0 (.recordUse (contentKey '1') (contentKey '2')), .proceed 0 2500, .proceed 0 2500,
    .passOver 0 [contentKey '1']] ++ List.replicate 6 (.advance 0)

/-- The old library's index goes, and the new library is published; but its
job stops before the line in the journal. -/
def publishUnannounced : List Event :=
  scanOldStore ++ List.replicate 4 (.advance 0) ++ [.start 0 (.storeCandidate newLibrary)] ++
    List.replicate 4 (.proceed 0 2500) ++ .giveUp 0 :: List.replicate 3 (.advance 0)

/-- A candidate is read whose library is not there. -/
def dangling (c : ActionCandidate) (s : State) : Bool :=
  decide ((s.store.readCandidates permissive c.staticKey).1 = some [c]) && !s.store.hasBlob (contentKey 'a')

theorem not_candidatesPresent_of_dangling {c : ActionCandidate} {s : State}
    (hc : contentKey 'a' ∈ (Record.candidate c).digests) (h : dangling c s = true) :
    ¬ CandidatesPresent permissive s.store := by
  rw [dangling, Bool.and_eq_true, decide_eq_true_eq, Bool.not_eq_true'] at h
  intro hall
  have := hall _ _ h.1 c (List.mem_singleton_self c) (contentKey 'a') hc
  rw [h.2] at this
  cases this

def Event.cuts : Event → Bool
  | .cutShort _ _ => true
  | _ => false

def Event.passesOver : Event → Bool
  | .passOver _ _ => true
  | _ => false

/-- **A server deletes the blobs of a candidate that is used again**, where the
index cannot be read as the use is; and those of one whose publication stops
before its line. No append is cut short, and there is one collection. -/
theorem server_candidate_dangles : CandidatesComplete permissive oldStore ∧
    (∃ ms s, Run (State.Step (server permissive 8)) (.init oldStore) ms s ∧ (∀ m ∈ ms, m.label.cuts = false) ∧
      ¬ CandidatesPresent permissive s.store) ∧
    ∃ ms s, Run (State.Step (server permissive 8)) (.init oldStore) ms s ∧
      (∀ m ∈ ms, m.label.cuts = false ∧ m.label.passesOver = false) ∧
      ¬ CandidatesPresent permissive s.store := by
  refine ⟨fun r _ => oldStore_complete r, ?_, ?_⟩
  · obtain ⟨ms, s, hr, hwhole, hd⟩ := exists_run (server permissive 8) Event.cuts (dangling oldLibrary) reuseUnread
      (by decide +kernel)
    exact ⟨ms, s, hr, hwhole, not_candidatesPresent_of_dangling (by decide +kernel) hd⟩
  · obtain ⟨ms, s, hr, hkind, hd⟩ := exists_run (server permissive 8) (fun event => event.cuts || event.passesOver)
      (dangling newLibrary) publishUnannounced (by decide +kernel)
    exact ⟨ms, s, hr, fun m hm => Bool.or_eq_false_iff.1 (hkind m hm),
      not_candidatesPresent_of_dangling (by decide +kernel) hd⟩

end Bellows.Collect
