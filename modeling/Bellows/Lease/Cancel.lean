/-
A cancel that is acknowledged takes effect: either it took the request out
of the queue before it was ever granted, or a `Revoked` message is in the
inbox of the request's connection.

Cancel decides by the scheduler whether the request is held, and only then
looks for its mailbox; it answers `Ok` whether or not it finds one. A held
request has no mailbox while its connection has not yet registered it, or
has already removed it on its way to the release, and one that nobody reads
when its task returned early. Every acknowledged cancel of a held request has a
message of its own exactly when each finds the mailbox of a connection that
is still there (`FindsMailbox`).
-/
import Bellows.Lease.ServerFacts

namespace Bellows.Lease

namespace Server

variable {s t : Server}

/-- How many cancels of `id` were answered `Ok`. -/
def acknowledged (s : Server) (id : Nat) : Nat := s.shared.answers.count (.cancel id, true)

/-- How many `Revoked` messages were put in connection `c`'s inbox. -/
def revocations (s : Server) (c : Nat) : Nat := (s.conns c).inbox.count revoked

/-- Every acknowledged cancel took the request out of the queue ungranted, or
has a `Revoked` message in its connection's inbox. -/
def CancelsTakeEffect (s : Server) : Prop :=
  ∀ id, 0 < s.acknowledged id → (id ∉ s.shared.logged.log.granted ∧ ¬ s.InScheduler id) ∨
    ∃ c, (s.conns c).phase.id? = some id ∧ s.acknowledged id ≤ s.revocations c

/-- A cancel that gets to the mailboxes finds its request's, of a connection
whose task has not returned. -/
def FindsMailbox (s : Server) : Event → Prop
  | .mailbox => ∀ id, s.shared.lock = some (.cancel id) →
    ∃ c, s.shared.mailboxes.lookup id = some c ∧ (s.conns c).phase.isEnded = false
  | _ => True

/-- The mailbox that is looked for is that of a connection still there. -/
def mailboxFound (s : Server) : Bool :=
  match s.shared.lock with
  | some (.cancel id) => (s.shared.mailboxes.lookup id).any fun c => !(s.conns c).phase.isEnded
  | _ => true

theorem findsMailbox_mailbox : s.FindsMailbox .mailbox ↔ s.mailboxFound = true := by
  rw [FindsMailbox, mailboxFound]
  split
  · next id hlock => simp [hlock, Option.any_eq_true]
  · next hlock => simpa using fun id h => absurd h (hlock id)

instance (s : Server) : (event : Event) → Decidable (s.FindsMailbox event)
  | .mailbox => decidable_of_iff' _ findsMailbox_mailbox
  | .conn .. | .admin _ | .housekeeping _ => .isTrue trivial

/-- The invariant while every cancel finds its mailbox. -/
structure Notified (s : Server) : Prop where
  inv : s.Inv
  effect : ∀ id, 0 < s.acknowledged id →
    (id ∉ s.shared.logged.log.granted ∧ s.shared.logged.Gone id) ∨
      ∃ c, (s.conns c).phase.id? = some id ∧ s.acknowledged id ≤ s.revocations c
  fresh : ∀ c, (s.conns c).phase.id? = none → s.revocations c = 0
  /-- No message without an acknowledged cancel. -/
  earned : ∀ c id, (s.conns c).phase.id? = some id → s.revocations c ≤ s.acknowledged id

theorem Notified.cancelsTakeEffect (h : s.Notified) : s.CancelsTakeEffect := by
  intro id hpos
  refine (h.effect id hpos).imp_left fun ⟨hg, hgone⟩ => ⟨hg, fun hin => ?_⟩
  exact hgone.dead ((h.inv.inScheduler_iff id).1 hin)

theorem new_notified (config : Config) (seed : UInt64) : (new config seed).Notified where
  inv := new_inv config seed
  effect id h := by simp [acknowledged, new] at h
  fresh c _ := by simp [revocations, new]
  earned c id h := by cases h

/-- A step that answers no cancel and delivers no revocation. -/
theorem Notified.of_same (h : s.Notified) (hi : t.Inv)
    (hanswers : ∀ id, t.acknowledged id = s.acknowledged id)
    (hinbox : ∀ c, t.revocations c = s.revocations c)
    (hstays : ∀ c id, (s.conns c).phase.id? = some id → (t.conns c).phase.id? = some id)
    (hids : ∀ c id, (t.conns c).phase.id? = some id →
      (s.conns c).phase.id? = some id ∨ (s.conns c).phase.id? = none)
    {mine : Option Nat} (hev : s.shared.logged.Evolves mine t.shared.logged) : t.Notified where
  inv := hi
  effect id hpos := by
    rw [hanswers] at hpos ⊢
    rcases h.effect id hpos with ⟨hg, hgone⟩ | ⟨c, hc, hle⟩
    · exact .inl ⟨hev.ungranted id hgone hg, hev.gone id hgone⟩
    · exact .inr ⟨c, hstays c id hc, by rw [hinbox]; exact hle⟩
  fresh c hc := by
    rw [hinbox]
    refine h.fresh c ?_
    cases hold : (s.conns c).phase.id? with
    | none => rfl
    | some id => rw [hstays c id hold] at hc; cases hc
  earned c id hc := by
    rw [hinbox, hanswers]
    rcases hids c id hc with hc | hnone
    · exact h.earned c id hc
    · rw [h.fresh c hnone]; exact Nat.zero_le _

theorem Notified.conn {c : Nat} {event : ConnEvent} (h : s.Notified) (hs : ConnStep s c event t) :
    t.Notified := by
  have hf := hs.frame h.inv
  refine h.of_same (hs.inv h.inv) (fun id => by rw [acknowledged, acknowledged, hf.answers]) (fun d => ?_)
    (fun d id => hs.stays h.inv) (fun d id hid => ?_) hf.evolves
  · by_cases hd : d = c
    · subst hd; rw [revocations, revocations, hf.inbox]
    · rw [revocations, revocations, hs.others d hd]
  · exact (hs.ids h.inv hid).imp_right fun ⟨hd, hnone, _⟩ => hd ▸ hnone

/-- A step of the scheduler's that moves no task and answers no cancel. -/
theorem Notified.frame {shared : Shared} (h : s.Notified) (hf : Frame s { s with shared })
    (hi : Inv { s with shared })
    (hanswers : ∀ id, acknowledged { s with shared } id = s.acknowledged id) :
    Notified { s with shared } :=
  h.of_same hi hanswers (fun _ => rfl) (fun _ _ hid => hid) (fun _ _ => .inl) hf.evolves

theorem answers_answer (shared : Shared) (action : AdminAction) (ok : Bool) (id : Nat) :
    (shared.answer action ok).answers.count (.cancel id, true) =
      shared.answers.count (.cancel id, true) + if action = .cancel id ∧ ok = true then 1 else 0 := by
  simp only [Shared.answer, List.count_append, List.count_singleton, beq_iff_eq, Prod.mk.injEq]

/-- An action answered at once that is not an acknowledged cancel. -/
theorem admin_acknowledged {action : AdminAction}
    (h : ∀ id, action = .cancel id → s.shared.scheduler.holds id = true ∨
      s.shared.scheduler.isWaiting id = false) (id : Nat) :
    acknowledged { s with shared := s.shared.admin action } id = s.acknowledged id := by
  cases action with
  | preempt id' =>
    simp only [acknowledged, Shared.admin]
    split
    · rfl
    · simp [answers_answer, Shared.apply]
  | cancel id' =>
    simp only [acknowledged, Shared.admin]
    split
    · rfl
    · next hh =>
      have hw := (h id' rfl).resolve_left hh
      simp [answers_answer, Shared.apply, hw]
  | _ => simp [acknowledged, Shared.admin, answers_answer, Shared.apply]

/-- A cancel of a waiting request is acknowledged, and takes it out of the queue. -/
theorem Notified.cancelWaiting {id : Nat} (h : s.Notified) (hi : Inv { s with shared := s.shared.admin (.cancel id) })
    (hh : ¬ s.shared.scheduler.holds id = true) (hw : s.shared.scheduler.isWaiting id = true) :
    Notified { s with shared := s.shared.admin (.cancel id) } := by
  have hf := admin_frame h.inv (.cancel id)
  have hwaits : s.shared.scheduler.Waits id := by
    simpa [Scheduler.isWaiting, Scheduler.Waits] using hw
  have hcount : ∀ id', acknowledged { s with shared := s.shared.admin (.cancel id) } id' =
      s.acknowledged id' + if id = id' then 1 else 0 := by
    intro id'
    simp [acknowledged, Shared.admin, hh, hw, answers_answer, Shared.apply]
  refine ⟨hi, fun id' hpos => ?_, h.fresh, fun c id' hc => ?_⟩
  · by_cases he : id' = id
    · subst he
      refine .inl ⟨?_, (h.inv.logged.scheduler.lt_of_waits hwaits).trans_le hf.evolves.nextId, fun hlive => ?_⟩
      · have hun := (h.inv.logged.waitingQueued id' hwaits).2
        simpa only [Shared.admin, if_neg hh, Shared.answer, Shared.apply, Logged.apply] using hun
      · simp [Shared.admin, hh, Shared.answer, Shared.apply, Logged.apply] at hlive
    · rw [hcount, if_neg (Ne.symm he), Nat.add_zero] at hpos ⊢
      rcases h.effect id' hpos with ⟨hg, hgone⟩ | hc
      · exact .inl ⟨hf.evolves.ungranted id' hgone hg, hf.evolves.gone id' hgone⟩
      · exact .inr hc
  · rw [hcount]
    exact (h.earned c id' hc).trans (Nat.le_add_right _ _)

theorem Notified.admin {action : AdminAction} (h : s.Notified)
    (hi : Inv { s with shared := s.shared.admin action }) :
    Notified { s with shared := s.shared.admin action } := by
  by_cases hcancel : ∃ id, action = .cancel id ∧ ¬ s.shared.scheduler.holds id = true ∧
      s.shared.scheduler.isWaiting id = true
  · obtain ⟨id, rfl, hh, hw⟩ := hcancel
    exact h.cancelWaiting hi hh hw
  · refine h.frame (admin_frame h.inv action) hi (admin_acknowledged fun id he => ?_)
    by_contra hn
    push Not at hn
    exact hcancel ⟨id, he, by simpa using hn.1, by simpa using hn.2⟩

/-! ## The end of a cancel -/

theorem revocations_deliver (s : Server) (id : Nat) (reply : Reply) (c : Nat) :
    (s.deliver id reply).revocations c = s.revocations c +
      if s.shared.mailboxes.lookup id = some c ∧ (s.conns c).phase.isEnded = false ∧ reply = revoked
        then 1 else 0 := by
  rcases s.deliver_cases id reply with ⟨d, hm, hd, he⟩ | ⟨hnone, he⟩ <;> rw [he]
  · by_cases hcd : c = d
    · subst hcd
      simp [revocations, Conn.put, List.count_append, List.count_singleton, hm, hd]
    · have hne : s.shared.mailboxes.lookup id ≠ some c := fun h => hcd (by rw [hm] at h; simpa using h.symm)
      simp [revocations, Function.update_of_ne hcd, hne]
  · have : ¬ (s.shared.mailboxes.lookup id = some c ∧ (s.conns c).phase.isEnded = false ∧ reply = revoked) := by
      rintro ⟨hm, hd, -⟩
      rw [hnone c hm] at hd
      cases hd
    rw [if_neg this, Nat.add_zero]

theorem Notified.mailbox (h : s.Notified) (hs : s.mailbox = some t) (hc : s.FindsMailbox .mailbox) :
    t.Notified := by
  have hi : t.Inv := h.inv.step (show Step s .mailbox t from hs)
  have hf := mailbox_frame h.inv hs
  obtain ⟨action, id, reply, hlock, hkind, hshared, hconns⟩ := mailbox_cases hs
  have hids : ∀ c, (t.conns c).phase.id? = (s.conns c).phase.id? := fun c => by rw [hf.phases c]
  have hrev : ∀ c, t.revocations c = (s.deliver id reply).revocations c := fun c => by
    rw [revocations, revocations, hconns]
  have hack : ∀ id', t.acknowledged id' = s.acknowledged id' +
      if action = .cancel id' then 1 else 0 := by
    intro id'
    rw [acknowledged, hshared, answers_answer]
    simp [acknowledged]
  rcases hkind with ⟨rfl, rfl⟩ | ⟨rfl, rfl⟩
  · refine h.of_same hi (fun id' => by rw [hack]; simp) (fun c => ?_) (fun c id' hid => by rw [hids, hid])
      (fun c id' hid => .inl (by rw [← hids, hid])) hf.evolves
    rw [hrev, revocations_deliver]
    simp [revoked]
  · obtain ⟨c, hm, hlive⟩ := hc id hlock
    have hcid := h.inv.mailboxes id c hm
    have hdel : ∀ d, t.revocations d = s.revocations d + if d = c then 1 else 0 := by
      intro d
      rw [hrev, revocations_deliver]
      by_cases hd : d = c
      · subst hd; simp [hm, hlive]
      · simp [hm, hd, Ne.symm hd]
    -- The request is held, so its earlier acknowledged cancels have a message each.
    have hearlier : s.acknowledged id ≤ s.revocations c := by
      rcases Nat.eq_zero_or_pos (s.acknowledged id) with hz | hpos
      · rw [hz]; exact Nat.zero_le _
      · rcases h.effect id hpos with ⟨-, hgone⟩ | ⟨d, hd, hle⟩
        · exact absurd (h.inv.lock id hlock) hgone.dead
        · rw [h.inv.distinct c d id hcid hd]; exact hle
    refine ⟨hi, fun id' hpos => ?_, fun d hd => ?_, fun d id' hd => ?_⟩
    · by_cases he : id' = id
      · subst he
        refine .inr ⟨c, by rw [hids]; exact hcid, ?_⟩
        rw [hack, hdel, if_pos rfl, if_pos rfl]
        exact Nat.succ_le_succ hearlier
      · have hack' : t.acknowledged id' = s.acknowledged id' := by rw [hack]; simp [Ne.symm he]
        rw [hack'] at hpos ⊢
        rcases h.effect id' hpos with ⟨hg, hgone⟩ | ⟨d, hd, hle⟩
        · exact .inl ⟨hf.evolves.ungranted id' hgone hg, hf.evolves.gone id' hgone⟩
        · exact .inr ⟨d, by rw [hids]; exact hd, by rw [hdel]; exact hle.trans (Nat.le_add_right _ _)⟩
    · rw [hids] at hd
      have hne : d ≠ c := fun he => by rw [he, hcid] at hd; cases hd
      rw [hdel, if_neg hne, h.fresh d hd]
    · rw [hids] at hd
      rw [hdel, hack]
      by_cases hdc : d = c
      · have he : id = id' := by rw [hdc, hcid] at hd; simpa using hd
        rw [if_pos hdc, if_pos (by rw [he])]
        exact Nat.succ_le_succ (h.earned d id' hd)
      · rw [if_neg hdc, Nat.add_zero]
        exact (h.earned d id' hd).trans (Nat.le_add_right _ _)

theorem Notified.step {event : Event} (h : s.Notified) (hs : Step s event t) (hc : s.FindsMailbox event) :
    t.Notified := by
  have hi : t.Inv := h.inv.step hs
  cases event with
  | conn c event => exact h.conn (step_conn hs)
  | admin action =>
    simp only [Step, Server.step] at hs
    obtain ⟨-, rfl⟩ := eq_some_of_locked hs
    exact h.admin hi
  | mailbox => exact h.mailbox hs hc
  | housekeeping task =>
    simp only [Step, Server.step] at hs
    obtain ⟨-, rfl⟩ := eq_some_of_locked hs
    refine h.frame (housekeeping_frame h.inv task) hi fun id => ?_
    cases task <;> simp only [Housekeeping.run]
    · split <;> rfl
    all_goals rfl

/-- A cancel that finds no mailbox of a task still there is acknowledged, and
nobody is told. -/
theorem Notified.not_effect {event : Event} (h : s.Notified) (hs : Step s event t)
    (hc : ¬ s.FindsMailbox event) : ¬ t.CancelsTakeEffect := by
  cases event with
  | mailbox =>
    simp only [FindsMailbox] at hc
    push Not at hc
    obtain ⟨id, hlock, hnone⟩ := hc
    have hf := mailbox_frame h.inv hs
    obtain ⟨action, id', reply, hlock', hkind, hshared, hconns⟩ := mailbox_cases hs
    rw [hlock, Option.some.injEq] at hlock'
    subst hlock'
    have hkind := hkind.resolve_left (by simp)
    simp only [AdminAction.cancel.injEq] at hkind
    obtain ⟨rfl, rfl⟩ := hkind
    have hack : t.acknowledged id = s.acknowledged id + 1 := by
      rw [acknowledged, hshared, answers_answer]
      simp [acknowledged]
    have hlive : id ∈ t.shared.logged.log.live := by rw [hshared]; exact h.inv.lock id hlock
    have hi : t.Inv := h.inv.step (show Step s .mailbox t from hs)
    intro heffect
    rcases heffect id (by rw [hack]; exact Nat.succ_pos _) with ⟨-, hout⟩ | ⟨c, hcid, hle⟩
    · exact hout ((hi.inScheduler_iff id).2 hlive)
    · rw [hf.phases c] at hcid
      have hsame : t.revocations c = s.revocations c := by
        rw [show t.revocations c = (s.deliver id revoked).revocations c by
          rw [revocations, revocations, hconns], revocations_deliver]
        have : ¬ (s.shared.mailboxes.lookup id = some c ∧ (s.conns c).phase.isEnded = false ∧
            revoked = revoked) := fun ⟨hm, he, _⟩ => hnone c hm he
        rw [if_neg this, Nat.add_zero]
      have := h.earned c id hcid
      rw [hack, hsame] at hle
      omega
  | _ => exact absurd trivial hc

end Server

/-- **Every acknowledged cancel takes effect, along a run of the daemon,
exactly when each cancel that gets to the mailboxes finds its request's, of
a connection that is still there.** -/
theorem run_cancelsTakeEffect_iff (config : Config) (seed : UInt64)
    {ms : List (Transition.Move Server Event)} {s : Server}
    (h : Transition.Run Server.Step (.new config seed) ms s) :
    (∀ m ∈ ms, m.post.CancelsTakeEffect) ↔ ∀ m ∈ ms, m.pre.FindsMailbox m.label :=
  h.posts_iff Server.Notified Server.CancelsTakeEffect Server.FindsMailbox (Server.new_notified config seed)
    (fun _ hn => hn.cancelsTakeEffect) (fun _ _ _ hn hs hc => hn.step hs hc)
    fun _ _ _ hn hs hc => hn.not_effect hs hc

/-- A cancel of a running job, which its connection is told of. -/
def toldCancel : List Event :=
  [.conn 0 (.admitRequest { machine := "desktop", label := "batch", estimateSecs := 60 } 0), .conn 0 (.poll 1),
    .conn 0 .register, .conn 0 (.send true), .conn 0 (.line (some (.spawned 4242))),
    .admin (.cancel 1), .mailbox, .conn 0 .receive]

/-- The cancel is acknowledged, and its message taken from the inbox. -/
theorem run_cancelsTakeEffect_iff_told : ∃ ms s, Transition.Run Server.Step (.new .default 1) ms s ∧
    1 ∈ s.shared.logged.log.granted ∧ s.acknowledged 1 = 1 ∧ (s.conns 0).inbox = [Server.revoked] ∧
    (s.conns 0).read = 1 ∧ ∀ m ∈ ms, m.post.CancelsTakeEffect := by
  have hends : (toldCancel.foldlM (fun (s : Server) event => if s.FindsMailbox event then s.step event else none)
      (.new .default 1)).map (fun s => (s.shared.logged.log.granted, s.acknowledged 1, (s.conns 0).inbox,
        (s.conns 0).read)) = some ([1], 1, [Server.revoked], 1) := by decide
  obtain ⟨s, hs, hp⟩ := Option.map_eq_some_iff.1 hends
  obtain ⟨ms, hrun, hfinds⟩ := Transition.Run.foldlM_checked _ _ _ _ hs
  simp only [Prod.mk.injEq] at hp
  obtain ⟨hgranted, hack, hinbox, hread⟩ := hp
  exact ⟨ms, s, hrun, by simp [hgranted], hack, hinbox, hread, (run_cancelsTakeEffect_iff .default 1 hrun).2 hfinds⟩

/-- A cancel that gets in between a request's grant and its mailbox; the job
runs on. -/
def lostCancel : List Event :=
  [.conn 0 (.admitRequest { machine := "desktop", label := "batch", estimateSecs := 60 } 0), .conn 0 (.poll 1),
    .admin (.cancel 1), .mailbox, .conn 0 .register, .conn 0 (.send true),
    .conn 0 (.line (some (.spawned 4242)))]

/-- The cancel is acknowledged, the lease held, and its client never told. -/
theorem lostCancel_no_effect :
    ¬ ∀ ms s, Transition.Run Server.Step (.new .default 1) ms s → s.CancelsTakeEffect := by
  intro hall
  have hends : (lostCancel.foldlM Server.step (.new .default 1)).map (fun s =>
      (s.acknowledged 1, s.shared.scheduler.holds 1, (s.conns 0).phase, s.revocations 0)) =
      some (1, true, .running 1 (some 4242), 0) := by decide
  obtain ⟨s, hs, hp⟩ := Option.map_eq_some_iff.1 hends
  obtain ⟨ms, hrun⟩ := Transition.Run.foldlM Server.step (.new .default 1) lostCancel hs
  simp only [Prod.mk.injEq] at hp
  obtain ⟨hack, hholds, hphase, hrev⟩ := hp
  have hi : s.Inv := Transition.Reachable.invariant Server.Inv (Server.new_inv .default 1)
    (fun _ _ _ hi hs => hi.step hs) ⟨ms, hrun⟩
  rcases hall ms s hrun 1 (by rw [hack]; decide) with ⟨-, hout⟩ | ⟨c, hc, hle⟩
  · exact hout (.inr (Scheduler.holds_iff.1 hholds))
  · have h0 : (s.conns 0).phase.id? = some 1 := by rw [hphase]; rfl
    rw [hi.distinct c 0 1 hc h0, hack, hrev] at hle
    cases hle

end Bellows.Lease
