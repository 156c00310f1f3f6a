/-
What a step of the daemon can do: the moves of a connection's task, one case
each (`Conn.Moves`), and what the others may rely on (`Server.Frame`). From
the frame follows the part of the daemon's invariant that no failing send
breaks.
-/
import Bellows.Lib.Run
import Bellows.Lease.Server

namespace Bellows.Lease

/-! ## What operations do to an id -/

theorem Scheduler.holds_iff {s : Scheduler} {id : Nat} : s.holds id = true ↔ s.Holds id ∨ s.Nests id := by
  rw [Scheduler.holds, Bool.or_eq_true, Assoc.findValue_isSome, Option.isSome_iff_exists]
  simp only [beq_iff_eq, Holds, Nests]

theorem Logged.apply_nextId {l : Logged} (hi : l.Inv) (op : Op) :
    l.scheduler.nextId ≤ (l.apply op).scheduler.nextId := by
  cases op with
  | admitRequest r now =>
    simp only [Logged.apply]
    rcases l.scheduler.admit_cases r now with ⟨f, he⟩ | ⟨f, he⟩ | ⟨_, _, -, -, he⟩ | ⟨-, -, he⟩ <;> simp [he]
  | grant now =>
    exact (l.scheduler.grant_grants hi.scheduler.waitingNodup now).invariant
      (fun s _ => l.scheduler.nextId ≤ s.nextId) (Nat.le_refl _)
      fun _ _ _ _ _ _ ih h => h.granted.nextId.symm ▸ ih
  | release id => exact (Scheduler.release_released hi.scheduler id).nextId.ge
  | reorder id position => exact (l.scheduler.reorder_sameIds id position).nextId.ge
  | preempt id => exact (l.scheduler.preempt_sameIds id).nextId.ge
  | setPaused machine paused => exact (l.scheduler.setPaused_sameIds machine paused).nextId.ge
  | reserve machine label => exact (l.scheduler.reserve_sameIds machine label).nextId.ge
  | ciStop machine job => exact (l.scheduler.ciStop_sameIds machine job).nextId.ge
  | _ => exact Nat.le_refl _

/-- Only an admission makes an id live, a fresh one. -/
theorem Logged.live_apply {l : Logged} (op : Op) {id : Nat} (h : id ∈ (l.apply op).log.live) :
    id ∈ l.log.live ∨ id = l.scheduler.nextId := by
  cases op with
  | admitRequest r now =>
    simp only [Logged.apply] at h
    rcases l.scheduler.admit_cases r now with ⟨f, he⟩ | ⟨f, he⟩ | ⟨_, _, -, -, he⟩ | ⟨-, -, he⟩ <;>
      simp only [he, List.mem_cons] at h
    · exact .inl h
    · exact .inl h
    · exact h.symm
    · exact h.symm
  | release id' => exact .inl (List.mem_of_mem_filter h)
  | _ => exact .inl h

/-- Only a waiting request is granted. -/
theorem Logged.granted_apply {l : Logged} (hi : l.Inv) (op : Op) {id : Nat}
    (h : id ∈ (l.apply op).log.granted) : id ∈ l.log.granted ∨ l.scheduler.Waits id := by
  cases op with
  | admitRequest r now =>
    simp only [Logged.apply] at h
    rcases l.scheduler.admit_cases r now with ⟨f, he⟩ | ⟨f, he⟩ | ⟨_, _, -, -, he⟩ | ⟨-, -, he⟩ <;>
      simp only [he] at h <;> exact .inl h
  | grant now =>
    rcases List.mem_append.1 h with h | h
    · exact .inl h
    have hg := (l.scheduler.grant_grants hi.scheduler.waitingNodup now).invariant
      (fun s gs => (∀ id, s.Waits id → l.scheduler.Waits id) ∧ ∀ g ∈ gs, l.scheduler.Waits g.id)
      ⟨fun _ h => h, by simp⟩ ?_
    · obtain ⟨g, hmem, rfl⟩ := List.mem_map.1 h
      exact .inr (hg.2 g hmem)
    · rintro s₁ s₂ gs machine g w ⟨hw, hgs⟩ hstep
      refine ⟨?_, fun g' hg' => ?_⟩
      · rintro id ⟨v, hv, he⟩
        exact hw id ⟨v, hstep.granted.sublist.subset hv, he⟩
      rcases List.mem_append.1 hg' with hg' | hg'
      · exact hgs g' hg'
      · rw [List.mem_singleton.1 hg', hstep.granted.grant.1]
        exact hw _ hstep.granted.waits_self
  | _ => exact .inl h

theorem Logged.Inv.lt_of_live {l : Logged} (hi : l.Inv) {id : Nat} (h : id ∈ l.log.live) :
    id < l.scheduler.nextId := by
  rcases (hi.live id).1 h with h | h | h
  · exact hi.scheduler.lt_of_waits h
  · exact hi.scheduler.lt_of_holds h
  · exact hi.scheduler.lt_of_nests h

/-- `id` was spent and is in none of the scheduler's collections. -/
structure Logged.Gone (l : Logged) (id : Nat) : Prop where
  spent : id < l.scheduler.nextId
  dead : id ∉ l.log.live

theorem Logged.Gone.apply {l : Logged} {id : Nat} (hi : l.Inv) (h : l.Gone id) (op : Op) :
    (l.apply op).Gone id :=
  ⟨h.spent.trans_le (Logged.apply_nextId hi op), fun hlive =>
    (Logged.live_apply op hlive).elim h.dead (Nat.ne_of_lt h.spent)⟩

/-- `id` is queued, or granted and unclaimed, or gone: what a connection that
polls for it may find. -/
structure Scheduler.Pending (s : Scheduler) (id : Nat) : Prop where
  known : id < s.nextId
  not_nests : ¬ s.Nests id
  unclaimed : s.Holds id → s.unclaimed.lookup id ≠ none

theorem Scheduler.Pending.of_sameIds {s s' : Scheduler} {id : Nat} (hp : s.Pending id)
    (h : SameIds s s') : s'.Pending id where
  known := by rw [h.nextId]; exact hp.known
  not_nests hn := hp.not_nests (h.nests.1 hn)
  unclaimed hh := by rw [h.unclaimed]; exact hp.unclaimed (h.holds hh)

theorem Scheduler.Pending.grantStep {s s' : Scheduler} {now id : Nat} {machine : String} {g : Grant}
    {w : Waiting} (hp : s.Pending id) (h : GrantStep now s s' machine g w) : s'.Pending id where
  known := by rw [h.granted.nextId]; exact hp.known
  not_nests hn := hp.not_nests (h.granted.nests.1 hn)
  unclaimed hh := by
    rw [h.granted.unclaimed, Assoc.lookup_insert_eq_ite]
    split
    · simp
    · next hne => exact hp.unclaimed (((h.granted.holds h.free).1 hh).resolve_right hne)

/-- No operation but its own claim takes an id's grant away from it. -/
theorem Logged.pending_apply {l : Logged} (hi : l.Inv) {id : Nat} (hp : l.scheduler.Pending id) {op : Op}
    (hop : op ≠ .claim id) : (l.apply op).scheduler.Pending id := by
  have hlt := hp.known.trans_le (Logged.apply_nextId hi op)
  cases op with
  | admitRequest r now =>
    simp only [Logged.apply] at hlt ⊢
    rcases l.scheduler.admit_cases r now with ⟨f, he⟩ | ⟨f, he⟩ | ⟨_, _, -, -, he⟩ | ⟨-, -, he⟩ <;>
      simp only [he] at hlt ⊢
    · exact hp
    · exact ⟨hlt, hp.not_nests, hp.unclaimed⟩
    · refine ⟨hlt, fun hn => ?_, hp.unclaimed⟩
      exact (Scheduler.nests_insert.1 hn).elim (Nat.ne_of_lt hp.known) hp.not_nests
    · exact ⟨hlt, hp.not_nests, hp.unclaimed⟩
  | grant now =>
    exact (l.scheduler.grant_grants hi.scheduler.waitingNodup now).invariant (fun s _ => s.Pending id) hp
      fun _ _ _ _ _ _ ih h => ih.grantStep h
  | claim id' =>
    refine ⟨hlt, hp.not_nests, fun hh => ?_⟩
    have hne : id ≠ id' := fun he => hop (by rw [he])
    simp only [Logged.apply, Scheduler.claim, Assoc.lookup_erase_eq_ite, hne, if_false]
    exact hp.unclaimed hh
  | release id' =>
    have hr := Scheduler.release_released hi.scheduler id'
    refine ⟨hlt, fun hn => hp.not_nests (hr.nests.1 hn).1, fun hh => ?_⟩
    obtain ⟨hh, hne⟩ := hr.holds.1 hh
    obtain ⟨g, hg⟩ := Option.ne_none_iff_exists'.1 (hp.unclaimed hh)
    rw [show (l.apply (.release id')).scheduler.unclaimed.lookup id = some g from
      (hr.unclaimed id g).2 ⟨hg, hne⟩]
    simp
  | reorder id' position => exact hp.of_sameIds (l.scheduler.reorder_sameIds id' position)
  | preempt id' => exact hp.of_sameIds (l.scheduler.preempt_sameIds id')
  | setPaused machine paused => exact hp.of_sameIds (l.scheduler.setPaused_sameIds machine paused)
  | reserve machine label => exact hp.of_sameIds (l.scheduler.reserve_sameIds machine label)
  | ciStart machine job now => exact hp.of_sameIds ⟨rfl, rfl, rfl, fun _ => rfl, rfl, rfl⟩
  | ciStop machine job => exact hp.of_sameIds (l.scheduler.ciStop_sameIds machine job)
  | setMergeQueue positions => exact hp.of_sameIds ⟨rfl, rfl, rfl, fun _ => rfl, rfl, rfl⟩
  | overruns now => exact hp.of_sameIds (l.scheduler.overruns_sameIds now)

/-- What may be relied on across steps of anyone but the task whose request
is `mine`. -/
structure Logged.Evolves (mine : Option Nat) (l l' : Logged) : Prop where
  inv : l'.Inv
  nextId : l.scheduler.nextId ≤ l'.scheduler.nextId
  gone : ∀ id, l.Gone id → l'.Gone id
  ungranted : ∀ id, l.Gone id → id ∉ l.log.granted → id ∉ l'.log.granted
  pending : ∀ id, mine ≠ some id → l.scheduler.Pending id → l'.scheduler.Pending id

theorem Logged.Evolves.refl {mine : Option Nat} {l : Logged} (hi : l.Inv) : Evolves mine l l :=
  ⟨hi, Nat.le_refl _, fun _ h => h, fun _ _ h => h, fun _ _ h => h⟩

theorem Logged.Evolves.apply {mine : Option Nat} {l l' : Logged} (h : Evolves mine l l') (op : Op)
    (hop : ∀ id, op = .claim id → mine = some id) : Evolves mine l (l'.apply op) where
  inv := h.inv.apply op
  nextId := h.nextId.trans (Logged.apply_nextId h.inv op)
  gone id hg := (h.gone id hg).apply h.inv op
  ungranted id hg hn hn' := by
    rcases Logged.granted_apply h.inv op hn' with hn' | hw
    · exact h.ungranted id hg hn hn'
    · exact (h.gone id hg).dead ((h.inv.live id).2 (.inl hw))
  pending id hm hp := Logged.pending_apply h.inv (h.pending id hm hp) fun he => hm (hop id he)

/-! ## The moves of a task -/

/-- Everything a connection's task can do. -/
inductive Conn.Moves (shared : Shared) (c : Nat) (conn : Conn) : ConnEvent → Shared → Conn → Prop
  | admitRequest {request nowMs} : conn.phase = .connected → shared.lock = none →
    Moves shared c conn (.admitRequest request nowMs) (conn.admitRequest shared request nowMs).1
      (conn.admitRequest shared request nowMs).2
  | refuse {spent refusal ok} : conn.phase = .refusing spent refusal →
    Moves shared c conn (.send ok) shared (conn.goto (.ended spent))
  | poll {id machine last nowMs} : conn.phase = .waiting id machine last → shared.lock = none →
    Moves shared c conn (.poll nowMs) (conn.poll shared id machine last nowMs).1
      (conn.poll shared id machine last nowMs).2
  | report {id machine report} : conn.phase = .reporting id machine report →
    Moves shared c conn (.send true) shared (conn.goto (.idle id machine (some report)))
  | reportFails {id machine report} : conn.phase = .reporting id machine report →
    Moves shared c conn (.send false) shared (conn.goto (.ended (some id)))
  | wake {id machine last} : conn.phase = .idle id machine last →
    Moves shared c conn .wake shared (conn.goto (.waiting id machine last))
  | leave {id machine last} : conn.phase = .idle id machine last →
    Moves shared c conn .hangup shared (conn.goto (.abandoning id))
  | cancelled {id} : conn.phase = .cancelled id →
    Moves shared c conn (.send true) shared (conn.goto (.abandoning id))
  | cancelledFails {id} : conn.phase = .cancelled id →
    Moves shared c conn (.send false) shared (conn.goto (.ended (some id)))
  | release {id} : conn.phase = .abandoning id ∨ conn.phase = .releasing id → shared.lock = none →
    Moves shared c conn .release (shared.apply (.release id)) (conn.goto (.regranting id))
  | register {id grant} : conn.phase = .granted id grant →
    Moves shared c conn .register { shared with mailboxes := shared.mailboxes.insert id c }
      (conn.goto (.registered id grant))
  | start {id grant} : conn.phase = .registered id grant →
    Moves shared c conn (.send true) shared (conn.goto (.running id none))
  | startFails {id grant} : conn.phase = .registered id grant →
    Moves shared c conn (.send false) shared (conn.goto (.ended (some id)))
  | spawned {id pgid group} : conn.phase = .running id pgid →
    Moves shared c conn (.line (some (.spawned group))) shared (conn.goto (.running id (some group)))
  | unread {id pgid} : conn.phase = .running id pgid → Moves shared c conn (.line none) shared conn
  | finish {id pgid event code} : conn.phase = .running id pgid →
    Moves shared c conn event shared (conn.goto (.finishing id pgid code))
  | receive {id pgid} : conn.phase = .running id pgid →
    Moves shared c conn .receive shared { conn with read := conn.read + 1 }
  | unregister {id pgid code} : conn.phase = .finishing id pgid code →
    Moves shared c conn .unregister { shared with mailboxes := shared.mailboxes.erase id }
      (conn.goto (.killing id pgid code))
  | kill {id pgid code groups} : conn.phase = .killing id pgid code →
    Moves shared c conn .kill { shared with killed := groups } (conn.goto (.releasing id))
  | regrant {id nowMs} : conn.phase = .regranting id → shared.lock = none →
    Moves shared c conn (.regrant nowMs) (shared.apply (.grant nowMs)) (conn.goto (.ended (some id)))

/-- A step that needs the scheduler's lock. -/
theorem eq_some_of_locked {α β : Type} {lock : Option α} {x y : β}
    (h : (if lock.isSome then none else some x) = some y) : lock = none ∧ x = y := by
  cases lock with
  | none => exact ⟨rfl, by simpa using h⟩
  | some _ => simp at h

theorem Conn.step_moves {shared shared' : Shared} {c : Nat} {conn conn' : Conn} {event : ConnEvent}
    (h : Conn.step shared c conn event = some (shared', conn')) :
    Conn.Moves shared c conn event shared' conn' := by
  unfold Conn.step at h
  split at h
  · next hp =>
    obtain ⟨hl, he⟩ := eq_some_of_locked h
    rw [← show (conn.admitRequest shared _ _).1 = shared' from congrArg Prod.fst he,
      ← show (conn.admitRequest shared _ _).2 = conn' from congrArg Prod.snd he]
    exact .admitRequest hp hl
  · next hp => cases h; exact .refuse hp
  · next hp =>
    obtain ⟨hl, he⟩ := eq_some_of_locked h
    rw [← show (conn.poll shared _ _ _ _).1 = shared' from congrArg Prod.fst he,
      ← show (conn.poll shared _ _ _ _).2 = conn' from congrArg Prod.snd he]
    exact .poll hp hl
  · next ok hp =>
    cases h
    cases ok with
    | true => exact .report hp
    | false => exact .reportFails hp
  · next hp => cases h; exact .wake hp
  · next hp => cases h; exact .leave hp
  · next ok hp =>
    cases h
    cases ok with
    | true => exact .cancelled hp
    | false => exact .cancelledFails hp
  · next hp =>
    obtain ⟨hl, he⟩ := eq_some_of_locked h
    cases he
    exact .release (.inl hp) hl
  · next hp =>
    obtain ⟨hl, he⟩ := eq_some_of_locked h
    cases he
    exact .release (.inr hp) hl
  · next hp => cases h; exact .register hp
  · next ok hp =>
    cases h
    cases ok with
    | true => exact .start hp
    | false => exact .startFails hp
  · next hp => cases h; exact .spawned hp
  · next hp => cases h; exact .unread hp
  · next hp => cases h; exact .finish hp
  · next hp => cases h; exact .finish hp
  · next hp =>
    split at h
    · cases h; exact .receive hp
    · cases h
  · next hp => cases h; exact .unregister hp
  · next hp => cases h; exact .kill hp
  · next hp =>
    obtain ⟨hl, he⟩ := eq_some_of_locked h
    cases he
    exact .regrant hp hl
  · cases h

/-! ## What the others may rely on -/

theorem Conn.admit_eq (shared : Shared) (conn : Conn) (request : Request) (nowMs : Nat) :
    (conn.admitRequest shared request nowMs).1 = shared.apply (.admitRequest request nowMs) := by
  simp only [Conn.admitRequest]
  split <;> rfl

theorem Conn.poll_eq (shared : Shared) (conn : Conn) (id : Nat) (machine : String) (last : Option Report)
    (nowMs : Nat) :
    (conn.poll shared id machine last nowMs).1 = (shared.apply (.grant nowMs)).apply (.claim id) := by
  simp only [Conn.poll]
  split
  · rfl
  · split
    · rfl
    · split <;> rfl

/-- Where an admission leaves the task: without an id, or with the fresh one,
refused, admitted under a session or queued. -/
theorem Conn.admit_phase {shared : Shared} (conn : Conn) (request : Request) (nowMs : Nat)
    (hi : shared.logged.Inv) :
    let id := shared.scheduler.nextId
    let after := shared.apply (.admitRequest request nowMs)
    ∃ phase, (conn.admitRequest shared request nowMs).2 = conn.goto phase ∧
      ((∃ refusal, phase = .refusing none refusal) ∨
        id < after.scheduler.nextId ∧
          ((∃ refusal, phase = .refusing (some id) refusal ∧ id ∉ after.logged.log.live) ∨
            (∃ grant, phase = .granted id grant) ∨
            ∃ machine, phase = .waiting id machine none ∧ after.scheduler.Pending id)) := by
  have hfresh : shared.scheduler.nextId ∉ shared.logged.log.live := fun h =>
    Nat.lt_irrefl _ (hi.lt_of_live h)
  have hs := hi.scheduler
  simp only [Conn.admitRequest, Shared.apply, Shared.scheduler, Logged.apply] at hfresh ⊢
  rcases shared.logged.scheduler.admit_cases request nowMs with
    ⟨f, he⟩ | ⟨f, he⟩ | ⟨_, _, -, -, he⟩ | ⟨-, -, he⟩ <;> simp only [he]
  · exact ⟨_, rfl, .inl ⟨f, by simp⟩⟩
  · refine ⟨_, rfl, .inr ⟨Nat.lt_succ_self _, .inl ⟨f, ?_, hfresh⟩⟩⟩
    rw [if_neg (Nat.succ_ne_self _)]
  · exact ⟨_, rfl, .inr ⟨Nat.lt_succ_self _, .inr (.inl ⟨_, rfl⟩)⟩⟩
  · refine ⟨_, rfl, .inr ⟨Nat.lt_succ_self _, .inr (.inr ⟨_, rfl, Nat.lt_succ_self _, fun hn => ?_, fun hh => ?_⟩)⟩⟩
    · exact Nat.lt_irrefl _ (hs.lt_of_nests hn)
    · exact absurd (hs.lt_of_holds hh) (Nat.lt_irrefl _)

/-- Where a poll leaves the task: with its grant, or removed from the queue,
or waiting on. -/
theorem Conn.poll_phase {shared : Shared} (conn : Conn) (id : Nat) (machine : String)
    (last : Option Report) (nowMs : Nat) (hi : shared.logged.Inv) (hp : shared.scheduler.Pending id) :
    let after := (shared.apply (.grant nowMs)).apply (.claim id)
    ∃ phase, (conn.poll shared id machine last nowMs).2 = conn.goto phase ∧
      ((∃ grant, phase = .granted id grant) ∨
        (phase = .cancelled id ∧ after.logged.Gone id) ∨
        ((∃ report, phase = .reporting id machine report) ∨ phase = .idle id machine last) ∧
          after.scheduler.Pending id) := by
  have hgrant : (shared.logged.apply (.grant nowMs)).Inv := hi.grant nowMs
  have hpend : (shared.logged.apply (.grant nowMs)).scheduler.Pending id :=
    Logged.pending_apply hi hp (by simp)
  have hinv : ((shared.logged.apply (.grant nowMs)).apply (.claim id)).Inv := hgrant.claim id
  simp only [Conn.poll]
  split
  · exact ⟨_, rfl, .inl ⟨_, rfl⟩⟩
  next hclaim =>
  -- Nothing to claim, so the request holds no machine.
  have hnot : ¬ (shared.logged.apply (.grant nowMs)).scheduler.Holds id := fun hh => hpend.unclaimed hh hclaim
  split
  · next hw =>
    refine ⟨_, rfl, .inr (.inl ⟨rfl, hpend.known, fun hlive => ?_⟩)⟩
    rcases (hinv.live id).1 hlive with hwaits | hholds | hnests
    · obtain ⟨w, hmem, rfl⟩ := hwaits
      simp only [Scheduler.isWaiting, Bool.not_eq_true', List.any_eq_false, beq_iff_eq] at hw
      exact hw w hmem rfl
    · exact hnot hholds
    · exact hpend.not_nests hnests
  · have hkeep : ((shared.apply (.grant nowMs)).apply (.claim id)).scheduler.Pending id :=
      ⟨hpend.known, hpend.not_nests, fun hh => absurd hh hnot⟩
    split
    · exact ⟨_, rfl, .inr (.inr ⟨.inl ⟨_, rfl⟩, hkeep⟩)⟩
    · exact ⟨_, rfl, .inr (.inr ⟨.inr rfl, hkeep⟩)⟩

/-- What a step of connection `c`'s task keeps for the others. -/
structure Conn.Frame (shared : Shared) (c : Nat) (conn : Conn) (shared' : Shared) (conn' : Conn) : Prop where
  lock : shared'.lock = shared.lock
  answers : shared'.answers = shared.answers
  inbox : conn'.inbox = conn.inbox
  evolves : shared.logged.Evolves conn.phase.id? shared'.logged
  locked : shared.lock ≠ none → shared'.logged = shared.logged
  id : conn'.phase.id? = conn.phase.id? ∨ conn.phase.id? = none ∧
    ∀ id, conn'.phase.id? = some id → id = shared.scheduler.nextId ∧ id < shared'.scheduler.nextId
  mailboxes : ∀ id d, shared'.mailboxes.lookup id = some d →
    shared.mailboxes.lookup id = some d ∨ d = c ∧ conn'.phase.id? = some id
  others : ∀ id, conn.phase.id? ≠ some id → shared'.mailboxes.lookup id = shared.mailboxes.lookup id

/-- A step that changes the task alone. -/
theorem Conn.Frame.local {shared : Shared} {c : Nat} {conn conn' : Conn} (hi : shared.logged.Inv)
    (hid : conn'.phase.id? = conn.phase.id?) (hin : conn'.inbox = conn.inbox) :
    Conn.Frame shared c conn shared conn' :=
  ⟨rfl, rfl, hin, .refl hi, fun _ => rfl, .inl hid, fun _ _ => .inl, fun _ _ => rfl⟩

/-- A step that uses the scheduler, and changes the task. -/
theorem Conn.Frame.scheduler {shared : Shared} {c : Nat} {conn conn' : Conn} {l : Logged}
    (hl : shared.lock = none) (h : shared.logged.Evolves conn.phase.id? l)
    (hid : conn'.phase.id? = conn.phase.id? ∨ conn.phase.id? = none ∧
      ∀ id, conn'.phase.id? = some id → id = shared.scheduler.nextId ∧ id < l.scheduler.nextId)
    (hin : conn'.inbox = conn.inbox) :
    Conn.Frame shared c conn { shared with logged := l } conn' :=
  ⟨rfl, rfl, hin, h, fun hne => absurd hl hne, hid, fun _ _ => .inl, fun _ _ => rfl⟩

/-- The request a task in `wait_for_grant`'s loop waits for. -/
def Phase.polling? : Phase → Option Nat
  | .waiting id _ _ | .reporting id _ _ | .idle id _ _ => some id
  | _ => none

/-- A task in `wait_for_grant`'s loop has its request pending. -/
def Conn.Polls (shared : Shared) (conn : Conn) : Prop :=
  ∀ id, conn.phase.polling? = some id → shared.scheduler.Pending id

theorem Conn.Moves.frame {shared shared' : Shared} {c : Nat} {conn conn' : Conn} {event : ConnEvent}
    (h : Conn.Moves shared c conn event shared' conn') (hi : shared.logged.Inv)
    (hpolls : conn.Polls shared) : Conn.Frame shared c conn shared' conn' := by
  have hstay : ∀ {phase : Phase}, phase.id? = conn.phase.id? →
      Conn.Frame shared c conn shared (conn.goto phase) := fun hid => .local hi hid rfl
  cases h with
  | admitRequest hp hl =>
    rename_i request nowMs
    obtain ⟨phase, hphase, hcases⟩ := Conn.admit_phase conn request nowMs hi
    rw [Conn.admit_eq, hphase]
    refine .scheduler hl ((Logged.Evolves.refl hi).apply _ (by simp)) (.inr ⟨by rw [hp]; rfl, ?_⟩) rfl
    intro id hid
    simp only [Conn.goto] at hid
    rcases hcases with ⟨_, rfl⟩ | ⟨hlt, ⟨_, rfl, -⟩ | ⟨_, rfl⟩ | ⟨_, rfl, -⟩⟩ <;>
      simp only [Phase.id?, reduceCtorEq, Option.some.injEq] at hid <;> exact hid ▸ ⟨rfl, hlt⟩
  | poll hp hl =>
    rename_i id machine last nowMs
    obtain ⟨phase, hphase, hcases⟩ := Conn.poll_phase conn id machine last nowMs hi (hpolls id (by rw [hp]; rfl))
    rw [Conn.poll_eq, hphase]
    have hmine : conn.phase.id? = some id := by rw [hp]; rfl
    refine .scheduler hl (((Logged.Evolves.refl hi).apply (.grant nowMs) (by simp)).apply (.claim id) ?_) (.inl ?_) rfl
    · intro id' he
      rw [hmine, Op.claim.inj he]
    · rw [hmine]
      rcases hcases with ⟨_, rfl⟩ | ⟨rfl, -⟩ | ⟨⟨_, rfl⟩ | rfl, -⟩ <;> rfl
  | refuse hp => exact hstay (by rw [hp]; rfl)
  | report hp => exact hstay (by rw [hp]; rfl)
  | reportFails hp => exact hstay (by rw [hp]; rfl)
  | wake hp => exact hstay (by rw [hp]; rfl)
  | leave hp => exact hstay (by rw [hp]; rfl)
  | cancelled hp => exact hstay (by rw [hp]; rfl)
  | cancelledFails hp => exact hstay (by rw [hp]; rfl)
  | release hp hl =>
    exact .scheduler hl ((Logged.Evolves.refl hi).apply _ (by simp)) (.inl (by rcases hp with hp | hp <;> rw [hp] <;> rfl)) rfl
  | @register id _ hp =>
    have hmine : conn.phase.id? = some id := by rw [hp]; rfl
    refine ⟨rfl, rfl, rfl, .refl hi, fun _ => rfl, .inl (by rw [hp]; rfl), fun id' d hd => ?_, fun id' hne => ?_⟩
    · simp only [Assoc.lookup_insert_eq_ite] at hd
      split at hd
      · next he => cases hd; subst he; exact .inr ⟨rfl, rfl⟩
      · exact .inl hd
    · have : id' ≠ id := fun he => hne (he ▸ hmine)
      simp only [Assoc.lookup_insert_eq_ite, this, if_false]
  | start hp => exact hstay (by rw [hp]; rfl)
  | startFails hp => exact hstay (by rw [hp]; rfl)
  | spawned hp => exact hstay (by rw [hp]; rfl)
  | unread hp => exact .local hi rfl rfl
  | finish hp => exact hstay (by rw [hp]; rfl)
  | receive hp => exact .local hi rfl rfl
  | @unregister id _ _ hp =>
    have hmine : conn.phase.id? = some id := by rw [hp]; rfl
    refine ⟨rfl, rfl, rfl, .refl hi, fun _ => rfl, .inl (by rw [hp]; rfl), fun id' d hd => .inl ?_,
      fun id' hne => ?_⟩
    · exact ((Scheduler.lookup_erase_some _ _ _ _).1 hd).1
    · have : id' ≠ id := fun he => hne (he ▸ hmine)
      simp only [Assoc.lookup_erase_eq_ite, this, if_false]
  | kill hp =>
    exact ⟨rfl, rfl, rfl, .refl hi, fun _ => rfl, .inl (by rw [hp]; rfl), fun _ _ => .inl, fun _ _ => rfl⟩
  | regrant hp hl =>
    exact .scheduler hl ((Logged.Evolves.refl hi).apply _ (by simp)) (.inl (by rw [hp]; rfl)) rfl

theorem Conn.Moves.polls {shared shared' : Shared} {c : Nat} {conn conn' : Conn} {event : ConnEvent}
    (h : Conn.Moves shared c conn event shared' conn') (hi : shared.logged.Inv)
    (hpolls : conn.Polls shared) : conn'.Polls shared' := by
  intro id hid
  cases h with
  | admitRequest hp hl =>
    rename_i request nowMs
    obtain ⟨phase, hphase, hcases⟩ := Conn.admit_phase conn request nowMs hi
    rw [hphase] at hid
    rw [Conn.admit_eq]
    simp only [Conn.goto] at hid
    rcases hcases with ⟨_, rfl⟩ | ⟨-, ⟨_, rfl, -⟩ | ⟨_, rfl⟩ | ⟨_, rfl, hpend⟩⟩ <;> cases hid
    exact hpend
  | poll hp hl =>
    rename_i id' machine last nowMs
    obtain ⟨phase, hphase, hcases⟩ :=
      Conn.poll_phase conn id' machine last nowMs hi (hpolls id' (by rw [hp]; rfl))
    rw [hphase] at hid
    rw [Conn.poll_eq]
    simp only [Conn.goto] at hid
    rcases hcases with ⟨_, rfl⟩ | ⟨rfl, -⟩ | ⟨⟨_, rfl⟩ | rfl, hpend⟩ <;> cases hid <;> exact hpend
  | report hp => exact hpolls id (by rw [hp]; exact hid)
  | wake hp => exact hpolls id (by rw [hp]; exact hid)
  | unread hp => exact hpolls id hid
  | receive hp => exact hpolls id hid
  | _ => cases hid

/-! ## The daemon's invariant -/

namespace Server

/-- What holds in every state of the daemon, whatever fails. -/
structure Inv (s : Server) : Prop where
  logged : s.shared.logged.Inv
  known : ∀ c id, (s.conns c).phase.id? = some id → id < s.shared.scheduler.nextId
  distinct : ∀ c d id, (s.conns c).phase.id? = some id → (s.conns d).phase.id? = some id → c = d
  /-- A mailbox belongs to the connection of its request. -/
  mailboxes : ∀ id c, s.shared.mailboxes.lookup id = some c → (s.conns c).phase.id? = some id
  polls : ∀ c, (s.conns c).Polls s.shared
  /-- A cancel under way has found its request held, and still does. -/
  lock : ∀ id, s.shared.lock = some (.cancel id) → id ∈ s.shared.logged.log.live

theorem new_inv (config : Config) (seed : UInt64) : (new config seed).Inv where
  logged := Logged.new_inv config seed
  known c id h := by cases h
  distinct c d id h := by cases h
  mailboxes id c h := by simp [new] at h
  polls c id h := by cases h
  lock id h := by cases h

variable {s t : Server}

/-- The scheduler still has `id` in one of its collections. -/
def InScheduler (s : Server) (id : Nat) : Prop :=
  s.shared.scheduler.Waits id ∨ s.shared.scheduler.Holds id ∨ s.shared.scheduler.Nests id

theorem Inv.inScheduler_iff (hi : s.Inv) (id : Nat) :
    s.InScheduler id ↔ id ∈ s.shared.logged.log.live := (hi.logged.live id).symm

/-- A step of connection `c`'s task. -/
structure ConnStep (s : Server) (c : Nat) (event : ConnEvent) (t : Server) : Prop where
  moves : Conn.Moves s.shared c (s.conns c) event t.shared (t.conns c)
  others : ∀ d, d ≠ c → t.conns d = s.conns d

theorem step_conn {c : Nat} {event : ConnEvent} (h : s.step (.conn c event) = some t) :
    ConnStep s c event t := by
  simp only [step, Option.map_eq_some_iff] at h
  obtain ⟨⟨shared, conn⟩, hstep, rfl⟩ := h
  refine ⟨?_, fun d hd => Function.update_of_ne hd conn s.conns⟩
  simp only [Function.update_self]
  exact Conn.step_moves hstep

theorem ConnStep.frame {c : Nat} {event : ConnEvent} (h : ConnStep s c event t) (hi : s.Inv) :
    Conn.Frame s.shared c (s.conns c) t.shared (t.conns c) :=
  h.moves.frame hi.logged (hi.polls c)

theorem ConnStep.stays {c : Nat} {event : ConnEvent} (h : ConnStep s c event t) (hi : s.Inv) {d id : Nat}
    (hid : (s.conns d).phase.id? = some id) : (t.conns d).phase.id? = some id := by
  by_cases hd : d = c
  · subst hd
    rcases (h.frame hi).id with he | ⟨he, -⟩
    · rw [he, hid]
    · rw [he] at hid; cases hid
  · rw [h.others d hd, hid]

/-- The id of a connection is an old one, or the next. -/
theorem ConnStep.ids {c : Nat} {event : ConnEvent} (h : ConnStep s c event t) (hi : s.Inv) {d id : Nat}
    (hid : (t.conns d).phase.id? = some id) : (s.conns d).phase.id? = some id ∨
      d = c ∧ (s.conns c).phase.id? = none ∧ id = s.shared.scheduler.nextId ∧
        id < t.shared.scheduler.nextId := by
  by_cases hd : d = c
  · subst hd
    rcases (h.frame hi).id with he | ⟨hnone, he⟩
    · exact .inl (he ▸ hid)
    · exact .inr ⟨rfl, hnone, he id hid⟩
  · rw [h.others d hd] at hid
    exact .inl hid

theorem ConnStep.inv {c : Nat} {event : ConnEvent} (h : ConnStep s c event t) (hi : s.Inv) : t.Inv := by
  have hf := h.frame hi
  refine ⟨hf.evolves.inv, fun d id hid => ?_, fun d e id hd he => ?_, fun id d hd => ?_, fun d => ?_,
    fun id hl => ?_⟩
  · rcases h.ids hi hid with hid | ⟨-, -, -, hlt⟩
    · exact (hi.known d id hid).trans_le hf.evolves.nextId
    · exact hlt
  · rcases h.ids hi hd with hd | ⟨rfl, -, rfl, -⟩ <;> rcases h.ids hi he with he | ⟨rfl, -, hnew, -⟩
    · exact hi.distinct d e id hd he
    · exact absurd (hnew ▸ hi.known d id hd) (Nat.lt_irrefl _)
    · exact absurd (hi.known e _ he) (Nat.lt_irrefl _)
    · rfl
  · rcases hf.mailboxes id d hd with hd | ⟨rfl, hid⟩
    · exact h.stays hi (hi.mailboxes id d hd)
    · exact hid
  · by_cases hd : d = c
    · subst hd; exact h.moves.polls hi.logged (hi.polls d)
    · rw [h.others d hd]
      intro id hid
      refine hf.evolves.pending id (fun hmine => hd ?_) (hi.polls d id hid)
      refine hi.distinct d c id ?_ hmine
      revert hid
      cases (s.conns d).phase <;> simp [Phase.polling?, Phase.id?]
  · rw [hf.lock] at hl
    rw [hf.locked (by rw [hl]; simp)]
    exact hi.lock id hl

/-- A step that moves no task. -/
structure Frame (s t : Server) : Prop where
  phases : ∀ c, (t.conns c).phase = (s.conns c).phase
  mailboxes : t.shared.mailboxes = s.shared.mailboxes
  evolves : s.shared.logged.Evolves none t.shared.logged

theorem Inv.of_frame (hi : s.Inv) (h : Frame s t)
    (hlock : ∀ id, t.shared.lock = some (.cancel id) → id ∈ t.shared.logged.log.live) : t.Inv where
  logged := h.evolves.inv
  known c id hid := (hi.known c id (h.phases c ▸ hid)).trans_le h.evolves.nextId
  distinct c d id hc hd := hi.distinct c d id (h.phases c ▸ hc) (h.phases d ▸ hd)
  mailboxes id c hc := by
    rw [h.phases c]
    exact hi.mailboxes id c (by rw [← h.mailboxes]; exact hc)
  polls c id hid := h.evolves.pending id (by simp) (hi.polls c id (h.phases c ▸ hid))
  lock := hlock

theorem Frame.of_ops (hi : s.Inv) {shared : Shared} (hm : shared.mailboxes = s.shared.mailboxes)
    (hl : shared.logged = s.shared.logged ∨ ∃ op, (∀ id, op ≠ .claim id) ∧
      shared.logged = s.shared.logged.apply op) : Frame s { s with shared } := by
  refine ⟨fun _ => rfl, hm, ?_⟩
  rcases hl with hl | ⟨op, hop, hl⟩ <;> simp only [hl]
  · exact .refl hi.logged
  · exact (Logged.Evolves.refl hi.logged).apply op fun id he => absurd he (hop id)

theorem admin_frame (hi : s.Inv) (action : AdminAction) :
    Frame s { s with shared := s.shared.admin action } := by
  cases action with
  | preempt id =>
    simp only [Shared.admin]
    split <;> exact .of_ops hi rfl (.inr ⟨.preempt id, by simp, rfl⟩)
  | cancel id =>
    simp only [Shared.admin]
    split
    · exact .of_ops hi rfl (.inl rfl)
    · exact .of_ops hi rfl (.inr ⟨.release id, by simp, rfl⟩)
  | reorder id position => exact .of_ops hi rfl (.inr ⟨.reorder id position, by simp, rfl⟩)
  | pause machine => exact .of_ops hi rfl (.inr ⟨.setPaused machine true, by simp, rfl⟩)
  | resume machine => exact .of_ops hi rfl (.inr ⟨.setPaused machine false, by simp, rfl⟩)
  | reserve machine label untilMs =>
    exact .of_ops hi rfl (.inr ⟨.reserve machine (some (label, untilMs)), by simp, rfl⟩)
  | unreserve machine => exact .of_ops hi rfl (.inr ⟨.reserve machine none, by simp, rfl⟩)

theorem housekeeping_frame (hi : s.Inv) (task : Housekeeping) :
    Frame s { s with shared := task.run s.shared } := by
  cases task with
  | ciStart machine job nowMs =>
    simp only [Housekeeping.run]
    split
    · exact .of_ops hi rfl (.inr ⟨.ciStart machine job nowMs, by simp, rfl⟩)
    · exact .of_ops hi rfl (.inl rfl)
  | ciStop machine job => exact .of_ops hi rfl (.inr ⟨.ciStop machine job, by simp, rfl⟩)
  | mergeQueue positions => exact .of_ops hi rfl (.inr ⟨.setMergeQueue positions, by simp, rfl⟩)
  | overruns nowMs => exact .of_ops hi rfl (.inr ⟨.overruns nowMs, by simp, rfl⟩)

/-- A message is delivered to the connection at the other end of the mailbox,
if that has not returned. -/
theorem deliver_cases (s : Server) (id : Nat) (reply : Reply) :
    (∃ c, s.shared.mailboxes.lookup id = some c ∧ (s.conns c).phase.isEnded = false ∧
      s.deliver id reply = { s with conns := Function.update s.conns c ((s.conns c).put reply) }) ∨
    ((∀ c, s.shared.mailboxes.lookup id = some c → (s.conns c).phase.isEnded = true) ∧
      s.deliver id reply = s) := by
  simp only [deliver]
  split
  · next hm =>
    refine .inr ⟨fun c hc => ?_, rfl⟩
    rw [hm] at hc
    cases hc
  next c hm =>
  split
  · next he =>
    refine .inr ⟨fun c' hc => ?_, rfl⟩
    rw [hm, Option.some.injEq] at hc
    exact hc ▸ he
  · next he => exact .inl ⟨c, hm, by simpa using he, rfl⟩

theorem deliver_shared (s : Server) (id : Nat) (reply : Reply) : (s.deliver id reply).shared = s.shared := by
  rcases s.deliver_cases id reply with ⟨c, -, -, he⟩ | ⟨-, he⟩ <;> rw [he]

theorem deliver_phase (s : Server) (id : Nat) (reply : Reply) (c : Nat) :
    ((s.deliver id reply).conns c).phase = (s.conns c).phase := by
  rcases s.deliver_cases id reply with ⟨d, -, -, he⟩ | ⟨-, he⟩ <;> rw [he]
  by_cases hd : c = d
  · subst hd; simp [Conn.put]
  · simp only [Function.update_of_ne hd]

/-- The end of an administrator's Preempt or Cancel. -/
theorem mailbox_cases (h : s.mailbox = some t) : ∃ action id reply, s.shared.lock = some action ∧
    (action = .preempt id ∧ reply = .preempting ∨ action = .cancel id ∧ reply = revoked) ∧
    t.shared = s.shared.answer action true ∧ t.conns = (s.deliver id reply).conns := by
  simp only [mailbox] at h
  split at h
  · next id hl => cases h; exact ⟨_, id, _, hl, .inl ⟨rfl, rfl⟩, by simp [deliver_shared], rfl⟩
  · next id hl => cases h; exact ⟨_, id, _, hl, .inr ⟨rfl, rfl⟩, by simp [deliver_shared], rfl⟩
  · cases h

theorem mailbox_frame (hi : s.Inv) (h : s.mailbox = some t) : Frame s t := by
  obtain ⟨action, id, reply, -, -, hs, hc⟩ := mailbox_cases h
  refine ⟨fun c => by rw [hc, deliver_phase], by rw [hs]; rfl, ?_⟩
  rw [hs]
  exact .refl hi.logged

theorem admin_lock {action : AdminAction} (hi : s.Inv) {id : Nat}
    (h : (s.shared.admin action).lock = some (.cancel id)) :
    id ∈ (s.shared.admin action).logged.log.live := by
  cases action with
  | preempt id' =>
    simp only [Shared.admin] at h
    split at h <;> cases h
  | cancel id' =>
    simp only [Shared.admin] at h ⊢
    split at h
    · next hholds =>
      simp only [Option.some.injEq, AdminAction.cancel.injEq] at h
      subst h
      rw [if_pos hholds, hi.logged.live]
      exact .inr (Scheduler.holds_iff.1 hholds)
    · cases h
  | _ => cases h

theorem Housekeeping.lock_eq (shared : Shared) (task : Housekeeping) :
    (task.run shared).lock = shared.lock := by
  cases task <;> simp only [Housekeeping.run]
  · split <;> rfl
  all_goals rfl

/-- Every step keeps the invariant, whatever it is. -/
theorem Inv.step {event : Event} (hi : s.Inv) (h : Step s event t) : t.Inv := by
  cases event with
  | conn c event => exact (step_conn h).inv hi
  | admin action =>
    simp only [Step, Server.step] at h
    obtain ⟨hl, rfl⟩ := eq_some_of_locked h
    exact hi.of_frame (admin_frame hi action) fun id => admin_lock hi
  | mailbox =>
    have hf := mailbox_frame hi h
    obtain ⟨action, _, _, -, -, hs, -⟩ := mailbox_cases h
    exact hi.of_frame hf fun id hl => by rw [hs] at hl; cases hl
  | housekeeping task =>
    simp only [Step, Server.step] at h
    obtain ⟨hl, rfl⟩ := eq_some_of_locked h
    exact hi.of_frame (housekeeping_frame hi task) fun id hl' => by
      rw [Housekeeping.lock_eq, hl] at hl'; cases hl'

end Server

end Bellows.Lease
