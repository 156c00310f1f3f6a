/-
Machine exclusion with sessions: what runs on a machine at one time belongs
to one holder's session.

The scheduler files a nested run under its machine alone. Whose session it
was admitted under is kept beside it here (`under`), so that the runs of two
sessions on one machine can be told apart. `release` frees a holder's
machine whatever nested runs its session still has, and `grant` looks at the
holders alone: the machine stays exclusive exactly as long as no `grant`
finds it free, with a request to give it to, while a nested run on it is
unreleased (`GrantsClear`).
-/
import Bellows.Lib.Run
import Bellows.Lease.GrantOrder

namespace Bellows.Lease

/-- A scheduler with, for each nested run, the id of the holder under whose
session it was admitted. -/
structure Sessions where
  logged : Logged
  under : Assoc Nat Nat

namespace Sessions

def new (config : Config) (seed : UInt64) : Sessions := ⟨.new config seed, ∅⟩

/-- The sessions on record after an admission. -/
def underAfter (x : Sessions) (request : Request) : Admission → Assoc Nat Nat
  | .nested grant =>
    match x.logged.scheduler.session? request with
    | some (_, holder) => x.under.insert grant.id holder.id
    | none => x.under
  | _ => x.under

def apply (x : Sessions) (op : Op) : Sessions where
  logged := x.logged.apply op
  under := match op with
    | .admitRequest request nowMs => x.underAfter request (x.logged.scheduler.admitRequest request nowMs).2
    | _ => x.under

/-- One operation, whichever the daemon's clients and administrators ask for. -/
def Step (x : Sessions) (op : Op) (y : Sessions) : Prop := y = x.apply op

/-- A run of the session of the holder `session` is in progress on `machine`:
the holder itself, or a nested run admitted under it and not released. -/
def RunsOn (x : Sessions) (machine : String) (session : Nat) : Prop :=
  (∃ h, x.logged.scheduler.holders.lookup machine = some h ∧ h.id = session) ∨
    ∃ id, x.logged.scheduler.nested.lookup id = some machine ∧ x.under.lookup id = some session

/-- All runs in progress on one machine belong to one holder's session. -/
def Exclusive (x : Sessions) : Prop := ∀ machine a b, x.RunsOn machine a → x.RunsOn machine b → a = b

/-- `op` is not a `grant` that finds a machine free, with a request to give
it to, while a nested run admitted on it is unreleased. -/
def GrantsClear (x : Sessions) : Op → Prop
  | .grant nowMs => ∀ machine, x.logged.scheduler.free machine = true →
    (x.logged.scheduler.eligible machine nowMs).isSome = true →
    ∀ id, x.logged.scheduler.nested.lookup id ≠ some machine
  | _ => True

theorem grantsClear_grant {x : Sessions} {nowMs : Nat} : x.GrantsClear (.grant nowMs) ↔
    ∀ e ∈ x.logged.scheduler.nested.entries,
      ¬ (x.logged.scheduler.free e.2 = true ∧ (x.logged.scheduler.eligible e.2 nowMs).isSome = true) := by
  constructor
  · rintro h e he ⟨hf, hel⟩
    exact h e.2 hf hel e.1 (Assoc.mem_entries_iff.1 he)
  · intro h machine hf hel id hn
    exact h ⟨id, machine⟩ (Assoc.mem_entries_iff.2 hn) ⟨hf, hel⟩

instance (x : Sessions) : (op : Op) → Decidable (x.GrantsClear op)
  | .grant _ => decidable_of_iff' _ grantsClear_grant
  | .admitRequest .. | .claim _ | .release _ | .reorder .. | .preempt _ | .setPaused .. | .reserve .. | .ciStart ..
  | .ciStop .. | .setMergeQueue _ | .overruns _ => .isTrue trivial

/-! ## Operations that start no run -/

/-- Every run of `s'` is a run of `s`, and only a fresh id may wait in `s'`
that does not in `s`. -/
structure Fewer (s s' : Scheduler) : Prop where
  nextId : s.nextId ≤ s'.nextId
  waits : ∀ id, s'.Waits id → s.Waits id ∨ s.nextId ≤ id
  holders : ∀ m h, s'.holders.lookup m = some h → ∃ h', s.holders.lookup m = some h' ∧ h'.id = h.id
  nested : ∀ id m, s'.nested.lookup id = some m → s.nested.lookup id = some m

theorem Fewer.of_sameIds {s s' : Scheduler} (h : Scheduler.SameIds s s') : Fewer s s' where
  nextId := h.nextId.ge
  waits _ hw := .inl (h.waits hw)
  holders m k hk := by
    obtain ⟨k', hk', hid, -⟩ := h.holder hk
    exact ⟨k', hk', hid⟩
  nested id m hn := by rw [← h.nested]; exact hn

theorem Fewer.of_released {s s' : Scheduler} {id : Nat} (h : Scheduler.Released s s' id) : Fewer s s' where
  nextId := h.nextId.ge
  waits _ hw := .inl (h.waits.1 hw).1
  holders m k hk := ⟨k, ((h.holders m k).1 hk).1, rfl⟩
  nested id' m hn := ((h.nested id' m).1 hn).1

/-- The operations other than `grant` start no run, unless they admit one
under a session. -/
theorem fewer_apply {l : Logged} (hi : l.Inv) {op : Op} (hgrant : ∀ now, op ≠ .grant now)
    (hnested : ∀ r now g, op = .admitRequest r now → (l.scheduler.admitRequest r now).2 ≠ .nested g) :
    Fewer l.scheduler (l.apply op).scheduler := by
  cases op with
  | admitRequest r now =>
    simp only [Logged.apply]
    rcases l.scheduler.admit_cases r now with ⟨f, he⟩ | ⟨f, he⟩ | ⟨_, _, -, -, he⟩ | ⟨-, -, he⟩
    · simp only [he]; exact .of_sameIds ⟨rfl, rfl, rfl, fun _ => rfl, rfl, rfl⟩
    · simp only [he]
      exact ⟨Nat.le_succ _, fun _ => .inl, fun m h hm => ⟨h, hm, rfl⟩, fun _ _ h => h⟩
    · exact absurd (by rw [he]) (hnested r now _ rfl)
    · simp only [he]
      refine ⟨Nat.le_succ _, fun id hw => ?_, fun m h hm => ⟨h, hm, rfl⟩, fun _ _ h => h⟩
      obtain ⟨w, hw, rfl⟩ := hw
      rcases List.mem_append.1 hw with hw | hw
      · exact .inl ⟨w, hw, rfl⟩
      · rw [List.mem_singleton.1 hw]; exact .inr (Nat.le_refl _)
  | grant now => exact absurd rfl (hgrant now)
  | claim id => exact ⟨Nat.le_refl _, fun _ => .inl, fun m h hm => ⟨h, hm, rfl⟩, fun _ _ h => h⟩
  | release id => exact .of_released (Scheduler.release_released hi.scheduler id)
  | reorder id position => exact .of_sameIds (l.scheduler.reorder_sameIds id position)
  | preempt id => exact .of_sameIds (l.scheduler.preempt_sameIds id)
  | setPaused machine paused => exact .of_sameIds (l.scheduler.setPaused_sameIds machine paused)
  | reserve machine label => exact .of_sameIds (l.scheduler.reserve_sameIds machine label)
  | ciStart machine job now => exact .of_sameIds ⟨rfl, rfl, rfl, fun _ => rfl, rfl, rfl⟩
  | ciStop machine job => exact .of_sameIds (l.scheduler.ciStop_sameIds machine job)
  | setMergeQueue positions => exact .of_sameIds ⟨rfl, rfl, rfl, fun _ => rfl, rfl, rfl⟩
  | overruns now => exact .of_sameIds (l.scheduler.overruns_sameIds now)

/-! ## The invariant -/

structure Inv (x : Sessions) : Prop where
  logged : x.logged.Inv
  exclusive : x.Exclusive
  /-- A nested run's session is that of an id that has held a machine. -/
  under : ∀ id m, x.logged.scheduler.nested.lookup id = some m → ∃ a, x.under.lookup id = some a ∧
    a < x.logged.scheduler.nextId ∧ ¬ x.logged.scheduler.Waits a

theorem new_inv (config : Config) (seed : UInt64) : (new config seed).Inv where
  logged := Logged.new_inv config seed
  exclusive m a b ha := by
    simp [RunsOn, new, Logged.new, Scheduler.new] at ha
  under id m h := by
    simp [new, Logged.new, Scheduler.new] at h

theorem Inv.of_fewer {x : Sessions} (hi : x.Inv) {l : Logged} (hl : l.Inv)
    (h : Fewer x.logged.scheduler l.scheduler) : Inv ⟨l, x.under⟩ where
  logged := hl
  exclusive m a b ha hb := by
    have hold : ∀ c, RunsOn ⟨l, x.under⟩ m c → x.RunsOn m c := by
      rintro c (⟨k, hk, rfl⟩ | ⟨id, hn, hu⟩)
      · obtain ⟨k', hk', hid⟩ := h.holders m k hk
        exact .inl ⟨k', hk', hid⟩
      · exact .inr ⟨id, h.nested id m hn, hu⟩
    exact hi.exclusive m a b (hold a ha) (hold b hb)
  under id m hn := by
    obtain ⟨a, ha, hlt, hw⟩ := hi.under id m (h.nested id m hn)
    refine ⟨a, ha, hlt.trans_le h.nextId, fun hw' => ?_⟩
    exact (h.waits a hw').elim hw (Nat.not_le_of_lt hlt)

/-- A run admitted under a session joins it. -/
theorem Inv.nest {x : Sessions} (hi : x.Inv) {r : Request} {now : Nat} {g : Grant}
    (hg : (x.logged.scheduler.admitRequest r now).2 = .nested g) : (x.apply (.admitRequest r now)).Inv := by
  have hl : (x.logged.apply (.admitRequest r now)).Inv := hi.logged.admitRequest r now
  rcases x.logged.scheduler.admit_cases r now with ⟨f, he⟩ | ⟨f, he⟩ | ⟨token, h, -, hs, he⟩ | ⟨-, -, he⟩
  case inr.inr.inl =>
    have hholds : x.logged.scheduler.holders.lookup r.machine = some h := (Scheduler.session?_some hs).2.1
    have hid : x.logged.scheduler.Holds h.id := ⟨r.machine, h, hholds, rfl⟩
    -- Each run on a machine is an old one, or the new one under the holder's session.
    have hold : ∀ m c, (x.apply (.admitRequest r now)).RunsOn m c →
        x.RunsOn m c ∨ m = r.machine ∧ c = h.id := by
      intro m c hr
      simp only [RunsOn, apply, underAfter, Logged.apply, he, hs, Assoc.lookup_insert_eq_ite] at hr
      rcases hr with hr | ⟨id, hn, hu⟩
      · exact .inl (.inl hr)
      · by_cases hid : id = x.logged.scheduler.nextId
        · simp only [hid, if_true, Option.some.injEq] at hn hu
          exact .inr ⟨hn.symm, hu.symm⟩
        · simp only [hid, if_false] at hn hu
          exact .inl (.inr ⟨id, hn, hu⟩)
    have hjoin : ∀ m c, (x.apply (.admitRequest r now)).RunsOn m c → x.RunsOn m c := by
      intro m c hr
      rcases hold m c hr with hr | ⟨rfl, rfl⟩
      · exact hr
      · exact .inl ⟨h, hholds, rfl⟩
    refine ⟨hl, fun m a b ha hb => hi.exclusive m a b (hjoin m a ha) (hjoin m b hb), fun id m hn => ?_⟩
    simp only [apply, underAfter, Logged.apply, he, hs, Assoc.lookup_insert_eq_ite] at hn ⊢
    by_cases hnew : id = x.logged.scheduler.nextId
    · simp only [hnew, if_true]
      exact ⟨h.id, rfl, (hi.logged.scheduler.lt_of_holds hid).trans (Nat.lt_succ_self _),
        fun hw => hi.logged.scheduler.waits_holds _ hw hid⟩
    · simp only [hnew, if_false] at hn ⊢
      obtain ⟨a, ha, hlt, hw⟩ := hi.under id m hn
      exact ⟨a, ha, hlt.trans (Nat.lt_succ_self _), hw⟩
  all_goals rw [he] at hg; cases hg

/-! ## Grants -/

theorem grants_nested {now : Nat} {s s' : Scheduler} {gs : List Grant} (h : Scheduler.Grants now s gs s') :
    s'.nested = s.nested ∧ s'.nextId = s.nextId ∧ ∀ id, s'.Waits id → s.Waits id := by
  refine h.invariant (fun s₁ _ => s₁.nested = s.nested ∧ s₁.nextId = s.nextId ∧
    ∀ id, s₁.Waits id → s.Waits id) ⟨rfl, rfl, fun _ h => h⟩ ?_
  rintro s₁ s₂ gs machine g w ⟨hn, hid, hw⟩ hstep
  refine ⟨hstep.granted.nested.trans hn, hstep.granted.nextId.trans hid, fun id hwaits => hw id ?_⟩
  obtain ⟨v, hv, rfl⟩ := hwaits
  exact ⟨v, hstep.granted.sublist.subset hv, rfl⟩

/-- What runs on `machine` after `grant`: what ran before, or the request it
gave the machine to and the nested runs there. -/
theorem grant_runsOn {x : Sessions} (hi : x.Inv) (now : Nat) (machine : String) :
    (∀ a, (x.apply (.grant now)).RunsOn machine a ↔ x.RunsOn machine a) ∨
    ∃ w, x.logged.scheduler.eligible machine now = some w ∧ x.logged.scheduler.free machine = true ∧
      (∃ k, (x.logged.scheduler.grant now).1.holders.lookup machine = some k ∧ k.id = w.id) := by
  have hs := hi.logged.scheduler
  have hr := hs.grant_round now
  by_cases hm : ∃ g ∈ (x.logged.scheduler.grant now).2, g.machine = machine
  · obtain ⟨g, hg, rfl⟩ := hm
    obtain ⟨k, hk, hid⟩ := hr.held g hg
    obtain ⟨w, hw, hel, -⟩ := (hr.inOrder g hg).grantee
    exact .inr ⟨w, hel, Scheduler.free_iff.2 ⟨(hr.inOrder g hg).unheld, (hr.inOrder g hg).unpaused⟩, k, hk,
      hid.trans hw.symm⟩
  · push Not at hm
    have hnested := (grants_nested (x.logged.scheduler.grant_grants hs.waitingNodup now)).1
    refine .inl fun a => ?_
    simp only [RunsOn, apply, Logged.apply, (hr.untouched machine hm).holder, hnested]

/-- A `grant` that finds no free machine with a nested run on it starts each
run alone. -/
theorem Inv.grant {x : Sessions} (hi : x.Inv) {now : Nat} (hc : x.GrantsClear (.grant now)) :
    (x.apply (.grant now)).Inv := by
  have hs := hi.logged.scheduler
  obtain ⟨hnested, hnext, hwaits⟩ := grants_nested (x.logged.scheduler.grant_grants hs.waitingNodup now)
  refine ⟨hi.logged.grant now, fun machine a b ha hb => ?_, fun id m hn => ?_⟩
  · rcases grant_runsOn hi now machine with hold | ⟨w, hel, hf, k, hk, -⟩
    · exact hi.exclusive machine a b ((hold a).1 ha) ((hold b).1 hb)
    · have halone : ∀ c, (x.apply (.grant now)).RunsOn machine c → c = k.id := by
        rintro c (⟨k', hk', rfl⟩ | ⟨id, hn, -⟩)
        · simp only [apply, Logged.apply, hk, Option.some.injEq] at hk'
          rw [hk']
        · simp only [apply, Logged.apply, hnested] at hn
          exact absurd hn (hc machine hf (by rw [hel]; rfl) id)
      rw [halone a ha, halone b hb]
  · simp only [apply, Logged.apply, hnested, hnext] at hn ⊢
    obtain ⟨a, ha, hlt, hw⟩ := hi.under id m hn
    exact ⟨a, ha, hlt, fun hw' => hw (hwaits a hw')⟩

/-- A `grant` that finds a free machine with a nested run on it gives it away. -/
theorem Inv.not_exclusive {x : Sessions} (hi : x.Inv) {now : Nat} (hc : ¬ x.GrantsClear (.grant now)) :
    ¬ (x.apply (.grant now)).Exclusive := by
  simp only [GrantsClear] at hc
  push Not at hc
  obtain ⟨machine, hf, hel, id, hn⟩ := hc
  have hs := hi.logged.scheduler
  have hr := hs.grant_round now
  have hnested := (grants_nested (x.logged.scheduler.grant_grants hs.waitingNodup now)).1
  -- The machine is among those granted: a round leaves none free with a request for it.
  have hg : ∃ g ∈ (x.logged.scheduler.grant now).2, g.machine = machine := by
    by_contra hno
    push Not at hno
    have hu := hr.untouched machine hno
    have := hs.grant_settled now machine (hu.free.trans hf)
    rw [← hu.eligible, this] at hel
    cases hel
  obtain ⟨g, hg, rfl⟩ := hg
  obtain ⟨k, hk, hid⟩ := hr.held g hg
  obtain ⟨w, hw, hel', -⟩ := (hr.inOrder g hg).grantee
  have hwaits : x.logged.scheduler.Waits k.id := ⟨w, (Scheduler.eligible_some hel').1, hw.trans hid.symm⟩
  obtain ⟨a, ha, -, hna⟩ := hi.under id g.machine hn
  intro hex
  have heq : a = k.id := hex g.machine a k.id
    (.inr ⟨id, by simpa only [apply, Logged.apply, hnested] using hn, ha⟩) (.inl ⟨k, hk, rfl⟩)
  exact hna (heq ▸ hwaits)

/-! ## Every run -/

theorem Inv.step {x y : Sessions} {op : Op} (hi : x.Inv) (h : x.Step op y) (hc : x.GrantsClear op) :
    y.Inv := by
  rw [h]
  by_cases hgrant : ∃ now, op = .grant now
  · obtain ⟨now, rfl⟩ := hgrant
    exact hi.grant hc
  by_cases hnested : ∃ r now g, op = .admitRequest r now ∧ (x.logged.scheduler.admitRequest r now).2 = .nested g
  · obtain ⟨r, now, g, rfl, hg⟩ := hnested
    exact hi.nest hg
  push Not at hgrant hnested
  have hf := fewer_apply hi.logged hgrant hnested
  have hunder : (x.apply op).under = x.under := by
    cases op with
    | admitRequest r now =>
      simp only [apply, underAfter]
      split
      · next g hg => exact absurd hg (hnested r now g rfl)
      · rfl
    | _ => rfl
  have := hi.of_fewer (hi.logged.apply op) hf
  rwa [← hunder] at this

end Sessions

/-- **A machine stays exclusive to one session, along a run of the scheduler,
exactly when no `grant` of the run finds it free, with a request to give it
to, while a nested run on it is unreleased.** -/
theorem run_exclusive_iff (config : Config) (seed : UInt64)
    {ms : List (Transition.Move Sessions Op)} {x : Sessions}
    (h : Transition.Run Sessions.Step (.new config seed) ms x) :
    (∀ m ∈ ms, m.post.Exclusive) ↔ ∀ m ∈ ms, m.pre.GrantsClear m.label :=
  h.posts_iff Sessions.Inv Sessions.Exclusive Sessions.GrantsClear (Sessions.new_inv config seed)
    (fun _ hi => hi.exclusive) (fun _ _ _ hi hs hc => hi.step hs hc) fun x op y hi hs hc => by
      rw [show y = x.apply op from hs]
      cases op with
      | grant now => exact hi.not_exclusive hc
      | _ => exact absurd trivial hc

/-- A session on the desktop (1) and a run nested in it (2), another request
(3); the session's connection ends before its nested run does. -/
def sharedDesktop : List Op :=
  let session := { machine := "desktop", label := "batch", estimateSecs := 60, session := true : Request }
  [.admitRequest session 0, .grant 1,
    .admitRequest { session with session := false, token := some "1-6c576fac43fd007c" } 2,
    .admitRequest { session with session := false } 3, .release 1, .grant 4]

/-- The same, but the nested run ends as well before the next `grant`; one in
between finds the desktop held. -/
def sharedInTurn : List Op :=
  let session := { machine := "desktop", label := "batch", estimateSecs := 60, session := true : Request }
  [.admitRequest session 0, .grant 1,
    .admitRequest { session with session := false, token := some "1-6c576fac43fd007c" } 2,
    .admitRequest { session with session := false } 3, .grant 3, .release 1, .release 2, .grant 4]

/-- Run 2 was session 1's, and the desktop is request 3's. -/
theorem run_exclusive_iff_inTurn : ∃ ms x, Transition.Run Sessions.Step (.new .default 1) ms x ∧
    x.under.lookup 2 = some 1 ∧ x.logged.log.granted = [1, 3] ∧ x.RunsOn "desktop" 3 ∧ ∀ m ∈ ms, m.post.Exclusive := by
  have hends : (sharedInTurn.foldlM (fun (x : Sessions) op => if x.GrantsClear op then some (x.apply op) else none)
      (.new .default 1)).map (fun x => (x.under.lookup 2, x.logged.log.granted,
        (x.logged.scheduler.holders.lookup "desktop").map (·.id))) = some (some 1, [1, 3], some 3) := by decide
  obtain ⟨x, hx, hp⟩ := Option.map_eq_some_iff.1 hends
  obtain ⟨ms, hrun, hclear⟩ := Transition.Run.foldlM_checked _ _ _ _ hx
  have hsteps : Transition.Run Sessions.Step (.new .default 1) ms x :=
    hrun.mono fun _ _ _ h => (Option.some.inj h).symm
  simp only [Prod.mk.injEq, Option.map_eq_some_iff] at hp
  obtain ⟨hunder, hgranted, hholder⟩ := hp
  exact ⟨ms, x, hsteps, hunder, hgranted, .inl hholder, (run_exclusive_iff .default 1 hsteps).2 hclear⟩

/-- The desktop goes to request 3 while run 2 of session 1 is still on it. -/
theorem sharedDesktop_not_exclusive :
    ¬ ∀ ms x, Transition.Run Sessions.Step (.new .default 1) ms x → x.Exclusive := by
  intro hall
  obtain ⟨ms, hrun⟩ := Transition.Run.foldl Sessions.apply (.new .default 1) sharedDesktop
  have hholder : ((sharedDesktop.foldl Sessions.apply (.new .default 1)).logged.scheduler.holders.lookup
      "desktop").map (·.id) = some 3 := by decide
  have hnested : (sharedDesktop.foldl Sessions.apply (.new .default 1)).logged.scheduler.nested.lookup 2 =
      some "desktop" := by decide
  have hunder : (sharedDesktop.foldl Sessions.apply (.new .default 1)).under.lookup 2 = some 1 := by decide
  have : (1 : Nat) = 3 := hall ms _ hrun "desktop" 1 3 (.inr ⟨2, hnested, hunder⟩)
    (.inl (by simpa using hholder))
  cases this

end Bellows.Lease
