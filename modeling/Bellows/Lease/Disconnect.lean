/-
A lease is held by its connection: what the scheduler and the mailboxes keep
of a request once its task has returned.

Every way out of the task but two passes the release at its end. The two are
failing sends: of `Queued`, while the request is still in the queue or holds
its machine, and of `Granted`, right after the mailbox was registered. There
the task returns past the release, and nothing else releases the request.
`Phase.Tidy` says, phase by phase, what is left to undo.
-/
import Bellows.Lease.ServerFacts

namespace Bellows.Lease

/-- The scheduler's and the mailboxes' part in a task's own phase. -/
def Phase.Tidy (shared : Shared) (c : Nat) : Phase → Prop
  | .connected | .refusing none _ | .ended none => True
  | .refusing (some id) _ | .cancelled id | .regranting id | .ended (some id) =>
    shared.logged.Gone id ∧ shared.mailboxes.lookup id = none
  | .waiting id _ _ | .reporting id _ _ | .idle id _ _ | .abandoning id | .granted id _
  | .killing id _ _ | .releasing id => shared.mailboxes.lookup id = none
  | .registered id _ | .running id _ | .finishing id _ _ => shared.mailboxes.lookup id = some c

/-- Tidiness of a phase rests on the request's own mailbox, and on its being
gone once it is. -/
theorem Phase.Tidy.keep {shared shared' : Shared} {c : Nat} {phase : Phase} (h : phase.Tidy shared c)
    (hmail : ∀ id, phase.id? = some id → shared'.mailboxes.lookup id = shared.mailboxes.lookup id)
    (hgone : ∀ id, shared.logged.Gone id → shared'.logged.Gone id) : phase.Tidy shared' c := by
  have hboth : ∀ id, phase.id? = some id → shared.logged.Gone id ∧ shared.mailboxes.lookup id = none →
      shared'.logged.Gone id ∧ shared'.mailboxes.lookup id = none := fun id hid h =>
    ⟨hgone id h.1, by rw [hmail id hid]; exact h.2⟩
  cases phase with
  | connected => trivial
  | refusing spent _ => cases spent with
    | none => trivial
    | some id => exact hboth id rfl h
  | ended id? => cases id? with
    | none => trivial
    | some id => exact hboth id rfl h
  | cancelled id => exact hboth id rfl h
  | regranting id => exact hboth id rfl h
  | waiting id | reporting id | idle id | abandoning id | granted id | killing id | releasing id =>
    exact (hmail id rfl).trans h
  | registered id | running id | finishing id => exact (hmail id rfl).trans h

namespace Server

variable {s t : Server}

/-- No waiting entry, holder, nested run, unclaimed grant or mailbox of `id`. -/
structure Forgotten (s : Server) (id : Nat) : Prop where
  waits : ¬ s.shared.scheduler.Waits id
  holds : ¬ s.shared.scheduler.Holds id
  nests : ¬ s.shared.scheduler.Nests id
  unclaimed : s.shared.scheduler.unclaimed.lookup id = none
  mailbox : s.shared.mailboxes.lookup id = none

/-- A request whose task has returned is forgotten. -/
def LeavesNothing (s : Server) : Prop :=
  ∀ c id, (s.conns c).phase = .ended (some id) → s.Forgotten id

/-- The step is not the failure of a send of `Queued` while the scheduler
still has the request, nor of a send of `Granted`. -/
def SendsReach (s : Server) : Event → Prop
  | .conn c (.send false) =>
    (∀ id machine report, (s.conns c).phase = .reporting id machine report → ¬ s.InScheduler id) ∧
      ∀ id grant, (s.conns c).phase ≠ .registered id grant
  | _ => True

/-- A send of connection `c`'s may fail now. -/
def sendMayFail (s : Server) (c : Nat) : Bool :=
  match (s.conns c).phase with
  | .reporting id _ _ => !s.shared.scheduler.isWaiting id && !s.shared.scheduler.holds id
  | .registered .. => false
  | _ => true

theorem sendsReach_send {c : Nat} : s.SendsReach (.conn c (.send false)) ↔ s.sendMayFail c = true := by
  rw [SendsReach, sendMayFail]
  cases hp : (s.conns c).phase with
  | reporting id machine report =>
    have hin : s.InScheduler id ↔ s.shared.scheduler.isWaiting id = true ∨ s.shared.scheduler.holds id = true := by
      rw [InScheduler, Scheduler.holds_iff]
      simp [Scheduler.isWaiting, Scheduler.Waits]
    simp [hin]
  | registered id grant => simp
  | _ => simp

instance (s : Server) : (event : Event) → Decidable (s.SendsReach event)
  | .conn _ (.send false) => decidable_of_iff' _ sendsReach_send
  | .conn _ (.send true) | .conn _ (.admitRequest ..) | .conn _ (.poll _) | .conn _ .wake | .conn _ .hangup
  | .conn _ (.line _) | .conn _ .receive | .conn _ .register | .conn _ .unregister | .conn _ .kill | .conn _ .release
  | .conn _ (.regrant _) | .admin _ | .mailbox | .housekeeping _ => .isTrue trivial

/-- The invariant while no send fails at the wrong place. -/
structure Tidy (s : Server) : Prop where
  inv : s.Inv
  conns : ∀ c, (s.conns c).phase.Tidy s.shared c

theorem Tidy.leavesNothing (h : s.Tidy) : s.LeavesNothing := by
  intro c id hc
  have htidy := h.conns c
  rw [hc] at htidy
  obtain ⟨hgone, hmail⟩ := htidy
  have hout : ¬ s.InScheduler id := fun hin => hgone.dead ((h.inv.inScheduler_iff id).1 hin)
  refine ⟨fun hw => hout (.inl hw), fun hh => hout (.inr (.inl hh)), fun hn => hout (.inr (.inr hn)), ?_, hmail⟩
  cases hu : s.shared.scheduler.unclaimed.lookup id with
  | none => rfl
  | some g => exact absurd (h.inv.logged.scheduler.holds_of_unclaimed hu) fun hh => hout (.inr (.inl hh))


/-- What a task's own move makes of its phase's tidiness. -/
theorem Tidy.moves {c : Nat} {event : ConnEvent} (h : s.Tidy) (hs : ConnStep s c event t)
    (hc : s.SendsReach (.conn c event)) : (t.conns c).phase.Tidy t.shared c := by
  have hi := h.inv
  have hold := h.conns c
  have hmoves := hs.moves
  generalize t.conns c = conn' at hmoves
  generalize t.shared = shared' at hmoves
  -- The phase it comes from, and what is tidy about it.
  have before : ∀ {phase : Phase}, (s.conns c).phase = phase → phase.Tidy s.shared c := fun hp => hp ▸ hold
  cases hmoves with
  | admitRequest hp hl =>
    rename_i request nowMs
    obtain ⟨phase, hphase, hcases⟩ := Conn.admit_phase (s.conns c) request nowMs hi.logged
    rw [Conn.admit_eq, hphase]
    have hfree : s.shared.mailboxes.lookup s.shared.scheduler.nextId = none := by
      cases hm : s.shared.mailboxes.lookup s.shared.scheduler.nextId with
      | none => rfl
      | some d => exact absurd (hi.known d _ (hi.mailboxes _ d hm)) (Nat.lt_irrefl _)
    simp only [Conn.goto]
    rcases hcases with ⟨_, rfl⟩ | ⟨hlt, ⟨_, rfl, hdead⟩ | ⟨_, rfl⟩ | ⟨_, rfl, -⟩⟩
    · trivial
    · exact ⟨⟨hlt, hdead⟩, hfree⟩
    · exact hfree
    · exact hfree
  | poll hp hl =>
    rename_i id machine last nowMs
    obtain ⟨phase, hphase, hcases⟩ :=
      Conn.poll_phase (s.conns c) id machine last nowMs hi.logged (hi.polls c id (by rw [hp]; rfl))
    rw [Conn.poll_eq, hphase]
    have hfree : s.shared.mailboxes.lookup id = none := before hp
    simp only [Conn.goto]
    rcases hcases with ⟨_, rfl⟩ | ⟨rfl, hgone⟩ | ⟨⟨_, rfl⟩ | rfl, -⟩
    · exact hfree
    · exact ⟨hgone, hfree⟩
    · exact hfree
    · exact hfree
  | @refuse spent _ _ hp =>
    have := before hp
    cases spent <;> exact this
  | report hp => exact (before hp :)
  | @reportFails id _ _ hp =>
    have hout : ¬ s.InScheduler id := hc.1 _ _ _ hp
    exact ⟨⟨hi.known c id (by rw [hp]; rfl), fun hlive => hout ((hi.inScheduler_iff id).2 hlive)⟩, before hp⟩
  | wake hp => exact (before hp :)
  | leave hp => exact (before hp :)
  | cancelled hp => exact (before hp).2
  | cancelledFails hp => exact (before hp :)
  | @release id hp hl =>
    have hmail : s.shared.mailboxes.lookup id = none := by
      rcases hp with hp | hp <;> exact (before hp :)
    have hknown := hi.known c id (by rcases hp with hp | hp <;> rw [hp] <;> rfl)
    refine ⟨⟨hknown.trans_le (Logged.apply_nextId hi.logged _), fun hlive => ?_⟩, hmail⟩
    simp [Shared.apply, Logged.apply] at hlive
  | @register id _ hp =>
    simp only [Conn.goto, Phase.Tidy, Assoc.lookup_insert_eq_ite, if_true]
  | start hp => exact (before hp :)
  | @startFails id grant hp => exact absurd hp (hc.2 id grant)
  | spawned hp => exact (before hp :)
  | unread hp => exact hold
  | finish hp => exact (before hp :)
  | receive hp => exact hold
  | @unregister id _ _ hp =>
    simp only [Conn.goto, Phase.Tidy, Assoc.lookup_erase_eq_ite, if_true]
  | kill hp => exact (before hp :)
  | @regrant id nowMs hp hl =>
    obtain ⟨hgone, hmail⟩ := before hp
    exact ⟨hgone.apply hi.logged (.grant nowMs), hmail⟩

theorem Frame.tidy (hf : Frame s t) (h : s.Tidy) (hi : t.Inv) : t.Tidy where
  inv := hi
  conns c := by
    rw [hf.phases c]
    exact (h.conns c).keep (fun _ _ => by rw [hf.mailboxes]) hf.evolves.gone

theorem Tidy.step {event : Event} (h : s.Tidy) (hs : Step s event t) (hc : s.SendsReach event) :
    t.Tidy := by
  have hi : t.Inv := h.inv.step hs
  cases event with
  | conn c event =>
    have hconn := step_conn hs
    refine ⟨hi, fun d => ?_⟩
    by_cases hd : d = c
    · subst hd; exact h.moves hconn hc
    · have hf := hconn.frame h.inv
      rw [hconn.others d hd]
      refine (h.conns d).keep (fun id hid => hf.others id fun hmine => hd ?_) hf.evolves.gone
      exact h.inv.distinct d c id hid hmine
  | admin action =>
    simp only [Step, Server.step] at hs
    obtain ⟨-, rfl⟩ := eq_some_of_locked hs
    exact (admin_frame h.inv action).tidy h hi
  | mailbox => exact (mailbox_frame h.inv hs).tidy h hi
  | housekeeping task =>
    simp only [Step, Server.step] at hs
    obtain ⟨-, rfl⟩ := eq_some_of_locked hs
    exact (housekeeping_frame h.inv task).tidy h hi

/-- A send that fails at the wrong place leaves its request behind. -/
theorem Tidy.not_leavesNothing {event : Event} (h : s.Tidy) (hs : Step s event t)
    (hc : ¬ s.SendsReach event) : ¬ t.LeavesNothing := by
  cases event with
  | conn c event =>
    cases event with
    | send ok =>
      cases ok with
      | true => exact absurd trivial hc
      | false =>
        intro hall
        refine hc ⟨fun id machine report hp hin => ?_, fun id grant hp => ?_⟩ <;>
          simp only [Step, Server.step, Conn.step, hp, Option.map_some, Option.some.injEq] at hs <;>
          subst hs
        · have hforgotten := hall c id (by simp [Conn.goto])
          exact hin.elim hforgotten.waits fun hin => hin.elim hforgotten.holds hforgotten.nests
        · have hforgotten := hall c id (by simp [Conn.goto])
          have hmail : s.shared.mailboxes.lookup id = some c := by
            have := h.conns c
            rwa [hp] at this
          rw [show s.shared.mailboxes.lookup id = none from hforgotten.mailbox] at hmail
          cases hmail
    | _ => exact absurd trivial hc
  | _ => exact absurd trivial hc

theorem new_tidy (config : Config) (seed : UInt64) : (new config seed).Tidy :=
  ⟨new_inv config seed, fun _ => trivial⟩

end Server

/-- **A request outlives its connection, along a run of the daemon, exactly
when a send of `Queued` fails while the scheduler still has it, or a send of
`Granted` fails.** -/
theorem run_leavesNothing_iff (config : Config) (seed : UInt64)
    {ms : List (Transition.Move Server Event)} {s : Server}
    (h : Transition.Run Server.Step (.new config seed) ms s) :
    (∀ m ∈ ms, m.post.LeavesNothing) ↔ ∀ m ∈ ms, m.pre.SendsReach m.label :=
  h.posts_iff Server.Tidy Server.LeavesNothing Server.SendsReach (Server.new_tidy config seed)
    (fun _ ht => ht.leavesNothing) (fun _ _ _ ht hs hc => ht.step hs hc)
    fun _ _ _ ht hs hc => ht.not_leavesNothing hs hc

/-- A client that goes away while its job runs (1), and one whose request (2)
an administrator cancels before its position could be sent. -/
def goneAway : List Event :=
  let desktop := { machine := "desktop", label := "batch", estimateSecs := 60 : Request }
  [.conn 0 (.admitRequest desktop 0), .conn 0 (.poll 1), .conn 0 .register, .conn 0 (.send true),
    .conn 1 (.admitRequest desktop 2), .conn 1 (.poll 3), .admin (.cancel 2), .conn 1 (.send false),
    .conn 0 (.line (some (.spawned 4242))), .conn 0 .hangup, .conn 0 .unregister, .conn 0 .kill, .conn 0 .release,
    .conn 0 (.regrant 4)]

/-- Both tasks have returned, and the job is killed. -/
theorem run_leavesNothing_iff_goneAway : ∃ ms s, Transition.Run Server.Step (.new .default 1) ms s ∧
    (s.conns 0).phase = .ended (some 1) ∧ (s.conns 1).phase = .ended (some 2) ∧
    s.shared.logged.log.granted = [1] ∧ s.shared.killed = [4242] ∧ ∀ m ∈ ms, m.post.LeavesNothing := by
  have hends : (goneAway.foldlM (fun (s : Server) event => if s.SendsReach event then s.step event else none)
      (.new .default 1)).map (fun s => ((s.conns 0).phase, (s.conns 1).phase, s.shared.logged.log.granted,
        s.shared.killed)) = some (.ended (some 1), .ended (some 2), [1], [4242]) := by decide
  obtain ⟨s, hs, hp⟩ := Option.map_eq_some_iff.1 hends
  obtain ⟨ms, hrun, hreach⟩ := Transition.Run.foldlM_checked _ _ _ _ hs
  simp only [Prod.mk.injEq] at hp
  obtain ⟨hfirst, hsecond, hgranted, hkilled⟩ := hp
  exact ⟨ms, s, hrun, hfirst, hsecond, hgranted, hkilled, (run_leavesNothing_iff .default 1 hrun).2 hreach⟩

/-- A request for a free desktop whose client is gone when its grant is sent. -/
def lostGrant : List Event :=
  [.conn 0 (.admitRequest { machine := "desktop", label := "batch", estimateSecs := 60 } 0), .conn 0 (.poll 1),
    .conn 0 .register, .conn 0 (.send false)]

/-- Its task has returned; the desktop is still held, its mailbox still registered. -/
theorem lostGrant_not_leavesNothing :
    ¬ ∀ ms s, Transition.Run Server.Step (.new .default 1) ms s → s.LeavesNothing := by
  intro hall
  have hends : (lostGrant.foldlM Server.step (.new .default 1)).map (fun s =>
      ((s.conns 0).phase, s.shared.scheduler.holds 1, s.shared.mailboxes.lookup 1)) =
      some (.ended (some 1), true, some 0) := by decide
  obtain ⟨s, hs, hp⟩ := Option.map_eq_some_iff.1 hends
  obtain ⟨ms, hrun⟩ := Transition.Run.foldlM Server.step (.new .default 1) lostGrant hs
  simp only [Prod.mk.injEq] at hp
  have hforgotten := hall ms s hrun 0 1 hp.1
  rw [hforgotten.mailbox] at hp
  simp at hp

end Bellows.Lease
