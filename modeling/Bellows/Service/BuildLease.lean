/-
Single-flight build leases of the server (`acquire_lease`, `release_lease`).

An acquire reads the clock, then waits for the lock on the leases, and then
works with the reading it has. What is in flight between the two is the list
`arrived`; the clock moves on meanwhile. A client releases only what it was
told it owns, any number of times and however late.
-/
import Bellows.Lib.Run
import Bellows.Lib.Assoc
import Bellows.Lib.Text

namespace Bellows.Service

/-! ## The two requests -/

structure LeaseRequest where
  clientId : Text
  ttlMs : Nat
  deriving DecidableEq, Repr

inductive LeaseResponse where
  | owned (token : Text) (expiresMs : Nat)
  | wait (retryAfterMs expiresMs : Nat)
  deriving DecidableEq, Repr

/-- The token of a lease the client is told it owns. -/
def LeaseResponse.token? : LeaseResponse → Option Text
  | .owned token _ => some token
  | .wait .. => none

structure Lease where
  token : Text
  expiresMs : Nat
  deriving DecidableEq, Repr

abbrev Leases := Assoc Text Lease

/-- The text whose digest is the token. -/
def tokenText (clientId staticKey : Text) (now : Nat) : Text :=
  clientId ++ ':' :: (staticKey ++ ':' :: Nat.toDigits 10 now)

/-- `ttl_ms` clamped to between a second and ten minutes. -/
def LeaseRequest.ttl (r : LeaseRequest) : Nat := max 1000 (min r.ttlMs (10 * 60 * 1000))

def acquireLease (digest : Text → Text) (leases : Leases) (now : Nat) (staticKey : Text)
    (request : LeaseRequest) : LeaseResponse × Leases :=
  let live := leases.retain fun lease => decide (now < lease.expiresMs)
  match live.lookup staticKey with
  | some lease => (.wait 150 lease.expiresMs, live)
  | none =>
    let token := digest (tokenText request.clientId staticKey now)
    let expiresMs := now + request.ttl
    (.owned token expiresMs, live.insert staticKey ⟨token, expiresMs⟩)

/-- Whether the lease was found, and the leases then. -/
def releaseLease (leases : Leases) (staticKey token : Text) : Bool × Leases :=
  if (leases.lookup staticKey).any (·.token == token) then (true, leases.erase staticKey)
  else (false, leases)

/-! ## The system -/

/-- An acquire that has read the clock. -/
structure Arrival where
  staticKey : Text
  request : LeaseRequest
  now : Nat
  deriving DecidableEq, Repr

/-- What a client was told about a key. -/
structure Answer where
  client : Text
  staticKey : Text
  response : LeaseResponse
  deriving DecidableEq, Repr

/-- A lease that a client was told it owns. -/
structure Grant where
  client : Text
  staticKey : Text
  lease : Lease
  deriving DecidableEq, Repr

structure LeaseState where
  clock : Nat
  leases : Leases
  arrived : List Arrival
  /-- Every answer given, the latest first. -/
  answers : List Answer
  /-- Every grant that no release has ended. -/
  held : List Grant

inductive LeaseEvent where
  | tick (clock : Nat)
  | arrive (staticKey : Text) (request : LeaseRequest)
  /-- The `i`-th of `arrived` has the lock. -/
  | acquire (i : Nat)
  | release (client staticKey token : Text)
  deriving DecidableEq, Repr

namespace LeaseState

def init : LeaseState := ⟨0, ∅, [], [], []⟩

/-- `client` was told that it owns a lease on `staticKey`, with this token. -/
def Told (s : LeaseState) (client staticKey token : Text) : Prop :=
  ∃ answer ∈ s.answers, answer.client = client ∧ answer.staticKey = staticKey ∧
    answer.response.token? = some token

instance (s : LeaseState) (client staticKey token : Text) : Decidable (s.Told client staticKey token) :=
  inferInstanceAs (Decidable (∃ answer ∈ s.answers, _))

/-- The lock section of an acquire. -/
def acquire (digest : Text → Text) (s : LeaseState) (a : Arrival) : LeaseState :=
  let result := acquireLease digest s.leases a.now a.staticKey a.request
  { s with
    leases := result.2
    answers := ⟨a.request.clientId, a.staticKey, result.1⟩ :: s.answers
    held := match result.1 with
      | .owned token expiresMs => ⟨a.request.clientId, a.staticKey, ⟨token, expiresMs⟩⟩ :: s.held
      | .wait .. => s.held }

def release (s : LeaseState) (staticKey token : Text) : LeaseState :=
  let result := releaseLease s.leases staticKey token
  { s with
    leases := result.2
    held := if result.1 then s.held.filter fun g => !(g.staticKey == staticKey && g.lease.token == token)
      else s.held }

def step (digest : Text → Text) (s : LeaseState) : LeaseEvent → Option LeaseState
  | .tick clock => if s.clock ≤ clock then some { s with clock } else none
  | .arrive staticKey request => some { s with arrived := ⟨staticKey, request, s.clock⟩ :: s.arrived }
  | .acquire i => s.arrived[i]?.map fun a =>
    ({ s with arrived := s.arrived.eraseIdx i } : LeaseState).acquire digest a
  | .release client staticKey token =>
    if s.Told client staticKey token then some (s.release staticKey token) else none

/-- `client` has a lease on `staticKey` that has neither expired nor been
released. -/
def Owns (s : LeaseState) (client staticKey : Text) : Prop :=
  ∃ g ∈ s.held, g.client = client ∧ g.staticKey = staticKey ∧ s.clock < g.lease.expiresMs

instance (s : LeaseState) (client staticKey : Text) : Decidable (s.Owns client staticKey) :=
  inferInstanceAs (Decidable (∃ g ∈ s.held, _))

/-- An acquire that is to be granted has the lock before the lease that it
reckons from its reading of the clock expires. -/
def InTime (s : LeaseState) : LeaseEvent → Prop
  | .acquire i => ∀ a ∈ s.arrived[i]?,
    (∀ lease ∈ s.leases.lookup a.staticKey, lease.expiresMs ≤ a.now) → s.clock < a.now + a.request.ttl
  | _ => True

end LeaseState

/-- What one step of the server owes its clients. -/
structure SingleFlight (m : Transition.Move LeaseState LeaseEvent) : Prop where
  exclusive : ∀ staticKey c c', m.post.Owns c staticKey → m.post.Owns c' staticKey → c = c'
  told : ∀ answer, m.post.answers = answer :: m.pre.answers → answer.response.token?.isSome = true →
    m.post.Owns answer.client answer.staticKey
  /-- A release ends no other client's grant and removes no other's lease. -/
  released : ∀ client staticKey token, m.label = .release client staticKey token →
    ∀ g ∈ m.pre.held, g.client ≠ client → g ∈ m.post.held ∧
      (m.pre.leases.lookup g.staticKey = some g.lease → m.post.leases.lookup g.staticKey = some g.lease)

/-! ## The two requests' specifications -/

theorem tokenText_injective {c c' staticKey : Text} {now now' : Nat}
    (h : tokenText c staticKey now = tokenText c' staticKey now') : c = c' := by
  have hdigits : ∀ n, ':' ∉ Nat.toDigits 10 n := by
    intro n hc
    have := Nat.isDigit_of_mem_toDigits (by omega) (by omega) hc
    revert this
    decide
  have hcut : ∀ c now, tokenText c staticKey now = (c ++ ':' :: staticKey) ++ ':' :: Nat.toDigits 10 now := by
    intro c now
    simp [tokenText]
  rw [hcut, hcut] at h
  exact List.append_cancel_right (Text.append_cons_inj (hdigits now) (hdigits now') h).1

section Acquire

variable {digest : Text → Text} {leases : Leases} {now : Nat} {staticKey : Text} {request : LeaseRequest}

/-- The leases an acquire leaves in place. -/
theorem lookup_live {lease : Lease} {key : Text} :
    (leases.retain fun lease => decide (now < lease.expiresMs)).lookup key = some lease ↔
      leases.lookup key = some lease ∧ now < lease.expiresMs := by
  rw [Assoc.lookup_retain, Option.filter_eq_some_iff, decide_eq_true_eq]

theorem acquireLease_wait {lease : Lease} (h : leases.lookup staticKey = some lease) (hl : now < lease.expiresMs) :
    acquireLease digest leases now staticKey request =
      (.wait 150 lease.expiresMs, leases.retain fun lease => decide (now < lease.expiresMs)) := by
  rw [acquireLease, lookup_live.2 ⟨h, hl⟩]

theorem acquireLease_owned (h : ∀ lease ∈ leases.lookup staticKey, lease.expiresMs ≤ now) :
    acquireLease digest leases now staticKey request =
      (.owned (digest (tokenText request.clientId staticKey now)) (now + request.ttl),
        (leases.retain fun lease => decide (now < lease.expiresMs)).insert staticKey
          ⟨digest (tokenText request.clientId staticKey now), now + request.ttl⟩) := by
  have hnone : (leases.retain fun lease => decide (now < lease.expiresMs)).lookup staticKey = none := by
    rw [Option.eq_none_iff_forall_ne_some]
    intro lease hl
    obtain ⟨hl, hnow⟩ := lookup_live.1 hl
    have := h lease hl
    omega
  rw [acquireLease, hnone]

end Acquire

theorem releaseLease_found {leases : Leases} {staticKey token : Text} {lease : Lease}
    (h : leases.lookup staticKey = some lease) (ht : lease.token = token) :
    releaseLease leases staticKey token = (true, leases.erase staticKey) := by
  simp [releaseLease, h, ht]

theorem releaseLease_missing {leases : Leases} {staticKey token : Text}
    (h : ∀ lease ∈ leases.lookup staticKey, lease.token ≠ token) :
    releaseLease leases staticKey token = (false, leases) := by
  rw [releaseLease, if_neg]
  rw [Option.any_eq_true]
  intro hf
  obtain ⟨lease, hl, ht⟩ := hf
  exact h lease hl (by simpa using ht)

/-! ## The invariant -/

namespace LeaseState

/-- What every reachable state satisfies; `stored` is what single flight rests
on: nothing but its own release takes an unexpired lease away. -/
structure Inv (digest : Text → Text) (s : LeaseState) : Prop where
  past : ∀ a ∈ s.arrived, a.now ≤ s.clock
  signed : ∀ client staticKey token, s.Told client staticKey token →
    ∃ now, token = digest (tokenText client staticKey now)
  told : ∀ g ∈ s.held, s.Told g.client g.staticKey g.lease.token
  stored : ∀ g ∈ s.held, s.clock < g.lease.expiresMs → s.leases.lookup g.staticKey = some g.lease

variable {digest : Text → Text} {s t : LeaseState}

theorem init_inv : init.Inv digest where
  past a h := by cases h
  signed client staticKey token h := by obtain ⟨answer, hm, -⟩ := h; cases hm
  told g h := by cases h
  stored g h := by cases h

theorem told_cons {answer : Answer} {leases : Leases} {held : List Grant} {client staticKey token : Text} :
    Told { s with leases, answers := answer :: s.answers, held } client staticKey token ↔
      (answer.client = client ∧ answer.staticKey = staticKey ∧ answer.response.token? = some token) ∨
        s.Told client staticKey token := by
  simp [Told]

/-- Only the owner's token takes the owner's lease away. -/
theorem Inv.other_token (h : s.Inv digest) (hd : Function.Injective digest) {client staticKey token : Text}
    (ht : s.Told client staticKey token) {g : Grant} (hg : g ∈ s.held) (hc : g.client ≠ client)
    (hk : g.staticKey = staticKey) : g.lease.token ≠ token := by
  intro he
  obtain ⟨now, hnow⟩ := h.signed _ _ _ ht
  obtain ⟨now', hnow'⟩ := h.signed _ _ _ (h.told g hg)
  subst hk
  have htext := hd (hnow'.symm.trans (he.trans hnow))
  exact hc (tokenText_injective htext)

/-! ### Steps -/

/-- What an acquire with the lock does. -/
theorem acquire_cases (digest : Text → Text) (s : LeaseState) (a : Arrival) :
    (∃ lease, s.leases.lookup a.staticKey = some lease ∧ a.now < lease.expiresMs ∧
      s.acquire digest a =
        { s with
          leases := s.leases.retain fun lease => decide (a.now < lease.expiresMs)
          answers := ⟨a.request.clientId, a.staticKey, .wait 150 lease.expiresMs⟩ :: s.answers }) ∨
    ((∀ lease ∈ s.leases.lookup a.staticKey, lease.expiresMs ≤ a.now) ∧
      ∃ token, token = digest (tokenText a.request.clientId a.staticKey a.now) ∧
        s.acquire digest a =
          { s with
            leases := (s.leases.retain fun lease => decide (a.now < lease.expiresMs)).insert a.staticKey
              ⟨token, a.now + a.request.ttl⟩
            answers := ⟨a.request.clientId, a.staticKey, .owned token (a.now + a.request.ttl)⟩ :: s.answers
            held := ⟨a.request.clientId, a.staticKey, ⟨token, a.now + a.request.ttl⟩⟩ :: s.held }) := by
  by_cases h : ∀ lease ∈ s.leases.lookup a.staticKey, lease.expiresMs ≤ a.now
  · refine .inr ⟨h, _, rfl, ?_⟩
    rw [acquire, acquireLease_owned h]
  · push Not at h
    obtain ⟨lease, hl, hnow⟩ := h
    refine .inl ⟨lease, hl, hnow, ?_⟩
    rw [acquire, acquireLease_wait hl hnow]

/-- What a release with the lock does. -/
theorem release_cases (s : LeaseState) (staticKey token : Text) :
    (∃ lease, s.leases.lookup staticKey = some lease ∧ lease.token = token ∧
      s.release staticKey token =
        { s with
          leases := s.leases.erase staticKey
          held := s.held.filter fun g => !(g.staticKey == staticKey && g.lease.token == token) }) ∨
    ((∀ lease ∈ s.leases.lookup staticKey, lease.token ≠ token) ∧ s.release staticKey token = s) := by
  by_cases h : ∀ lease ∈ s.leases.lookup staticKey, lease.token ≠ token
  · refine .inr ⟨h, ?_⟩
    rw [release, releaseLease_missing h]
    rfl
  · push Not at h
    obtain ⟨lease, hl, ht⟩ := h
    refine .inl ⟨lease, hl, ht, ?_⟩
    rw [release, releaseLease_found hl ht]
    rfl

theorem Inv.acquire (h : s.Inv digest) {a : Arrival} (ha : a.now ≤ s.clock) : (s.acquire digest a).Inv digest := by
  have hlive : ∀ g ∈ s.held, s.clock < g.lease.expiresMs →
      (s.leases.retain fun lease => decide (a.now < lease.expiresMs)).lookup g.staticKey = some g.lease := by
    intro g hg hclock
    exact lookup_live.2 ⟨h.stored g hg hclock, by omega⟩
  rcases acquire_cases digest s a with ⟨lease, hl, hnow, he⟩ | ⟨hfree, token, htoken, he⟩
  · rw [he]
    refine ⟨h.past, ?_, ?_, hlive⟩
    · intro client staticKey token ht
      rcases told_cons.1 ht with ⟨-, -, hnone⟩ | ht
      · cases hnone
      · exact h.signed _ _ _ ht
    · intro g hg
      exact told_cons.2 (.inr (h.told g hg))
  · rw [he]
    refine ⟨h.past, ?_, ?_, ?_⟩
    · intro client staticKey token' ht
      rcases told_cons.1 ht with ⟨rfl, rfl, hnew⟩ | ht
      · obtain rfl := Option.some.inj hnew
        exact ⟨a.now, htoken⟩
      · exact h.signed _ _ _ ht
    · intro g hg
      rcases List.mem_cons.1 hg with rfl | hg
      · exact told_cons.2 (.inl ⟨rfl, rfl, rfl⟩)
      · exact told_cons.2 (.inr (h.told g hg))
    · intro g hg hclock
      show (AList.insert _ _ _).lookup _ = _
      rw [Assoc.lookup_insert_eq_ite]
      rcases List.mem_cons.1 hg with rfl | hg
      · exact if_pos rfl
      · -- an unexpired lease on this key would have made the acquire wait
        rw [if_neg]
        · exact hlive g hg hclock
        · intro hk
          have hexpired := hfree g.lease (by rw [← hk]; exact h.stored g hg hclock)
          have hclock' : s.clock < g.lease.expiresMs := hclock
          omega

theorem Inv.release (h : s.Inv digest) (staticKey token : Text) : (s.release staticKey token).Inv digest := by
  rcases release_cases s staticKey token with ⟨lease, hl, ht, he⟩ | ⟨-, he⟩
  · rw [he]
    refine ⟨h.past, h.signed, fun g hg => h.told g (List.mem_filter.1 hg).1, ?_⟩
    intro g hg hclock
    obtain ⟨hg, hkept⟩ := List.mem_filter.1 hg
    have hstored := h.stored g hg hclock
    show (AList.erase _ _).lookup _ = _
    rw [Assoc.lookup_erase_eq_ite, if_neg]
    · exact hstored
    · intro hk
      rw [hk, hl] at hstored
      obtain rfl := Option.some.inj hstored
      simp [hk, ht] at hkept
  · rw [he]
    exact h

/-- What each event does, guards included. -/
theorem step_cases {event : LeaseEvent} (hs : s.step digest event = some t) :
    (∃ clock, event = .tick clock ∧ s.clock ≤ clock ∧ t = { s with clock }) ∨
    (∃ staticKey request, event = .arrive staticKey request ∧
      t = { s with arrived := ⟨staticKey, request, s.clock⟩ :: s.arrived }) ∨
    (∃ i a, event = .acquire i ∧ s.arrived[i]? = some a ∧
      t = ({ s with arrived := s.arrived.eraseIdx i } : LeaseState).acquire digest a) ∨
    (∃ client staticKey token, event = .release client staticKey token ∧ s.Told client staticKey token ∧
      t = s.release staticKey token) := by
  cases event with
  | tick clock =>
    simp only [step, Option.ite_none_right_eq_some, Option.some.injEq] at hs
    exact .inl ⟨clock, rfl, hs.1, hs.2.symm⟩
  | arrive staticKey request =>
    exact .inr (.inl ⟨staticKey, request, rfl, (Option.some.inj hs).symm⟩)
  | acquire i =>
    simp only [step, Option.map_eq_some_iff] at hs
    obtain ⟨a, ha, he⟩ := hs
    exact .inr (.inr (.inl ⟨i, a, rfl, ha, he.symm⟩))
  | release client staticKey token =>
    simp only [step, Option.ite_none_right_eq_some, Option.some.injEq] at hs
    exact .inr (.inr (.inr ⟨client, staticKey, token, rfl, hs.1, hs.2.symm⟩))

theorem Inv.taken (h : s.Inv digest) (i : Nat) :
    Inv digest { s with arrived := s.arrived.eraseIdx i } :=
  ⟨fun a ha => h.past a (List.mem_of_mem_eraseIdx ha), h.signed, h.told, h.stored⟩

theorem Inv.step (h : s.Inv digest) {event : LeaseEvent} (hs : s.step digest event = some t) : t.Inv digest := by
  rcases step_cases hs with ⟨clock, -, hle, rfl⟩ | ⟨staticKey, request, -, rfl⟩ | ⟨i, a, -, ha, rfl⟩ |
    ⟨client, staticKey, token, -, ht, rfl⟩
  · exact ⟨fun a ha => (h.past a ha).trans hle, h.signed, h.told,
      fun g hg hclock => h.stored g hg (lt_of_le_of_lt hle hclock)⟩
  · refine ⟨?_, h.signed, h.told, h.stored⟩
    intro a ha
    rcases List.mem_cons.1 ha with rfl | ha
    · exact le_refl _
    · exact h.past a ha
  · exact (h.taken i).acquire (h.past a (List.mem_of_getElem? ha))
  · exact h.release staticKey token

/-! ## Single flight -/

theorem Inv.exclusive (h : s.Inv digest) (hd : Function.Injective digest) {staticKey c c' : Text}
    (ho : s.Owns c staticKey) (ho' : s.Owns c' staticKey) : c = c' := by
  obtain ⟨g, hg, rfl, rfl, hclock⟩ := ho
  obtain ⟨g', hg', rfl, hk, hclock'⟩ := ho'
  by_contra hne
  have hstored := h.stored g hg hclock
  have hstored' := h.stored g' hg' hclock'
  rw [hk, hstored] at hstored'
  have hother := h.other_token hd (h.told g' hg') hg hne hk.symm
  exact hother (by rw [Option.some.inj hstored'])

/-- The answer that the latest step gave. -/
theorem told_iff_inTime {i : Nat} {a : Arrival} (ha : s.arrived[i]? = some a)
    (ht : t = ({ s with arrived := s.arrived.eraseIdx i } : LeaseState).acquire digest a) (hi : t.Inv digest) :
    (∀ answer, t.answers = answer :: s.answers → answer.response.token?.isSome = true →
      t.Owns answer.client answer.staticKey) ↔ s.InTime (.acquire i) := by
  rcases acquire_cases digest { s with arrived := s.arrived.eraseIdx i } a with
    ⟨lease, hl, hnow, he⟩ | ⟨hfree, token, -, he⟩
  · -- told to wait
    rw [he] at ht
    subst ht
    constructor
    · intro _ a' ha' hfree
      obtain rfl : a = a' := Option.some.inj (ha.symm.trans ha')
      have := hfree lease hl
      omega
    · intro _ answer hanswer htok
      obtain rfl := (List.cons.inj hanswer).1
      cases htok
  · rw [he] at ht
    subst ht
    constructor
    · intro htold a' ha' _
      obtain rfl : a = a' := Option.some.inj (ha.symm.trans ha')
      obtain ⟨g, hg, hc, hk, hclock⟩ := htold _ rfl rfl
      -- whichever grant makes the client the owner, the lease stored is the new one
      have hstored := hi.stored g hg hclock
      rw [hk] at hstored
      change AList.lookup a.staticKey (AList.insert a.staticKey _ (_ : Leases)) = some g.lease at hstored
      rw [AList.lookup_insert] at hstored
      rw [← Option.some.inj hstored] at hclock
      exact hclock
    · intro htime answer hanswer _
      obtain rfl := (List.cons.inj hanswer).1
      exact ⟨_, List.mem_cons_self, rfl, rfl, htime a ha hfree⟩

theorem Inv.released (h : s.Inv digest) (hd : Function.Injective digest) {client staticKey token : Text}
    (ht : s.Told client staticKey token) {g : Grant} (hg : g ∈ s.held) (hc : g.client ≠ client) :
    g ∈ (s.release staticKey token).held ∧ (s.leases.lookup g.staticKey = some g.lease →
      (s.release staticKey token).leases.lookup g.staticKey = some g.lease) := by
  rcases release_cases s staticKey token with ⟨lease, hl, hlt, he⟩ | ⟨-, he⟩
  · rw [he]
    constructor
    · refine List.mem_filter.2 ⟨hg, ?_⟩
      by_cases hk : g.staticKey = staticKey
      · simp [hk, h.other_token hd ht hg hc hk]
      · simp [hk]
    · intro hstored
      show (AList.erase _ _).lookup _ = _
      rw [Assoc.lookup_erase_eq_ite, if_neg]
      · exact hstored
      · intro hk
        rw [hk, hl] at hstored
        obtain rfl := Option.some.inj hstored
        exact h.other_token hd ht hg hc hk hlt
  · rw [he]
    exact ⟨hg, fun hstored => hstored⟩

theorem Inv.singleFlight_iff (h : s.Inv digest) (hd : Function.Injective digest) {event : LeaseEvent}
    (hs : s.step digest event = some t) : SingleFlight ⟨s, event, t⟩ ↔ s.InTime event := by
  have ht := h.step hs
  have hexclusive : ∀ staticKey c c', t.Owns c staticKey → t.Owns c' staticKey → c = c' :=
    fun staticKey c c' => ht.exclusive hd
  have hsame : ∀ answer, s.answers ≠ answer :: s.answers := by
    intro answer heq
    have := congrArg List.length heq
    simp at this
  rcases step_cases hs with ⟨clock, rfl, hle, rfl⟩ | ⟨staticKey, request, rfl, rfl⟩ | ⟨i, a, rfl, ha, he⟩ |
    ⟨client, staticKey, token, rfl, htold, rfl⟩
  · exact ⟨fun _ => trivial, fun _ => ⟨hexclusive, fun answer heq => absurd heq (hsame answer),
      fun _ _ _ hev => by cases hev⟩⟩
  · exact ⟨fun _ => trivial, fun _ => ⟨hexclusive, fun answer heq => absurd heq (hsame answer),
      fun _ _ _ hev => by cases hev⟩⟩
  · rw [← told_iff_inTime ha he ht]
    exact ⟨fun hsf => hsf.told, fun htold => ⟨hexclusive, htold, fun _ _ _ hev => by cases hev⟩⟩
  · have hanswers : (s.release staticKey token).answers = s.answers := rfl
    refine ⟨fun _ => trivial, fun _ => ⟨hexclusive, ?_, ?_⟩⟩
    · intro answer heq
      exact absurd (hanswers.symm.trans heq) (hsame answer)
    · intro client' staticKey' token' hev g hg hc
      cases hev
      exact h.released hd htold hg hc

/-- **Single flight holds exactly while no grant is stale.** In every run, with
a collision-free digest: each step leaves at most one owner a key, tells a
client that it owns a lease only when it does, and releases no other client's
lease, exactly if each acquire that is to be granted has the lock before the
lease it reckons from its earlier reading of the clock expires. -/
theorem singleFlight_iff_inTime (digest : Text → Text) (hd : Function.Injective digest)
    {ms : List (Transition.Move LeaseState LeaseEvent)} {s : LeaseState}
    (h : Transition.Run (fun s event t => s.step digest event = some t) init ms s) :
    (∀ m ∈ ms, SingleFlight m) ↔ ∀ m ∈ ms, m.pre.InTime m.label := by
  refine forall₂_congr fun m hm => ?_
  obtain ⟨hreach, hstep⟩ := h.mem m hm
  have hinv : m.pre.Inv digest := hreach.invariant (Inv digest) init_inv fun _ _ _ hi hs => hi.step hs
  exact hinv.singleFlight_iff hd hstep

/-- One client's acquire, another's while the first owns the lease, the first's
release, and the second's retry. -/
def handover : List LeaseEvent :=
  [.arrive ['k'] ⟨['a'], 1000⟩, .acquire 0, .arrive ['k'] ⟨['b'], 1000⟩, .acquire 0, .tick 5,
    .release ['a'] ['k'] (tokenText ['a'] ['k'] 0), .arrive ['k'] ⟨['b'], 1000⟩, .acquire 0]

theorem singleFlight_handover :
    ∃ ms s, Transition.Run (fun s event t => s.step (fun text => text) event = some t) init ms s ∧
      s.Owns ['b'] ['k'] ∧ ((∀ m ∈ ms, SingleFlight m) ↔ ∀ m ∈ ms, m.pre.InTime m.label) := by
  have hrun : (handover.foldlM (step fun text => text) init).any (fun s => decide (s.Owns ['b'] ['k'])) = true := by
    decide +kernel
  obtain ⟨s, hs, howns⟩ := (Option.any_eq_true _ _).1 hrun
  obtain ⟨ms, hms⟩ := Transition.Run.foldlM _ _ _ hs
  exact ⟨ms, s, hms, of_decide_eq_true howns, singleFlight_iff_inTime _ (fun _ _ heq => heq) hms⟩

/-- An acquire that waits for the lock until the lease it will be given has
expired: the client is told that it owns it. -/
theorem staleGrant_not_owned :
    ¬ ∀ ms s, Transition.Run (fun s event t => s.step (fun text => text) event = some t) init ms s →
      ∀ m ∈ ms, SingleFlight m := by
  intro hall
  have hrun : ([.arrive ['k'] ⟨['a'], 1000⟩, .tick 1000].foldlM (step fun text => text) init).any (fun s =>
      (s.step (fun text => text) (.acquire 0)).any fun t =>
        decide (t.answers = ⟨['a'], ['k'], .owned (tokenText ['a'] ['k'] 0) 1000⟩ :: s.answers ∧
          ¬ t.Owns ['a'] ['k'])) = true := by
    decide +kernel
  obtain ⟨s, hs, hlast⟩ := (Option.any_eq_true _ _).1 hrun
  obtain ⟨t, ht, hbad⟩ := (Option.any_eq_true _ _).1 hlast
  obtain ⟨hanswer, hnot⟩ := of_decide_eq_true hbad
  obtain ⟨ms, hms⟩ := Transition.Run.foldlM _ _ _ hs
  have hsf := hall _ _ (hms.snoc ht) ⟨s, .acquire 0, t⟩ (by simp)
  exact hnot (hsf.told _ hanswer rfl)

end LeaseState

end Bellows.Service
