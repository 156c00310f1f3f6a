/-
Any number of compiler wrappers and the server that leases cold compiles to
them, step by step in any order.

A request for a lease may be with the server, or answered and on its way back,
when the wrapper gives it up; a release may get lost. What nobody can release
any more is kept in `lost`: it lasts until it expires. A wrapper is known by its
client id, and no two have one.
-/
import Mathlib.Logic.Function.Basic
import Bellows.Cli.WrapperFacts

namespace Bellows.Cli.Wrapper

open Dialogue Bellows.Core Bellows.Service

/-- Where a wrapper's request for a lease is: not made, with the server, or on
its way back. -/
inductive Asked where
  | no
  | sent
  | answered (response : LeaseResponse)
  deriving DecidableEq, Repr

structure Client where
  program : Asking (Except String ExitStatus)
  history : List (Exchange Answer)
  asked : Asked

namespace Client

def ledger (c : Client) : Ledger := Wrapper.ledger.sees .start c.history

/-- The key of the lease that it is asking for. -/
def pendingKey (c : Client) : Option Text :=
  match c.program with
  | .call (.acquire staticKey _) _ => some staticKey
  | _ => none

/-- Answered, it goes on. -/
def goes (c : Client) {call : Call} (next : Answer call → Asking (Except String ExitStatus)) (answer : Answer call) :
    Client := ⟨next answer, c.history ++ [⟨call, answer⟩], .no⟩

end Client

structure Flight where
  server : LeaseState
  clients : Text → Client
  /-- The grants that nobody can release any more. -/
  lost : List Grant

/-- The calls that are about the lease. -/
def leaseCall : Call → Bool
  | .acquire .. | .release .. => true
  | _ => false

/-- The grant that an answer is. -/
def grantIn (client staticKey : Text) : LeaseResponse → List Grant
  | .owned token expiresMs => [⟨client, staticKey, ⟨token, expiresMs⟩⟩]
  | .wait .. => []

/-- The grant that is lost with a request. -/
def Asked.grants (client staticKey : Text) : Asked → List Grant
  | .answered response => grantIn client staticKey response
  | _ => []

namespace Flight

def put (s : Flight) (id : Text) (c : Client) : Flight := { s with clients := Function.update s.clients id c }

/-- Its client still waits for the answer. -/
def Awaits (s : Flight) (a : Arrival) : Prop :=
  (s.clients a.request.clientId).asked = .sent ∧ (s.clients a.request.clientId).pendingKey = some a.staticKey

instance (s : Flight) (a : Arrival) : Decidable (s.Awaits a) := inferInstanceAs (Decidable (_ ∧ _))

/-- The `i`-th arrival has the lock. -/
def serve (digest : Text → Text) (s : Flight) (i : Nat) (a : Arrival) : Flight :=
  let response := (acquireLease digest s.server.leases a.now a.staticKey a.request).1
  let server := ({ s.server with arrived := s.server.arrived.eraseIdx i } : LeaseState).acquire digest a
  if s.Awaits a then
    { s.put a.request.clientId { s.clients a.request.clientId with asked := .answered response } with server }
  else { s with server, lost := grantIn a.request.clientId a.staticKey response ++ s.lost }

end Flight

inductive FlightEvent where
  | tick
  | exchange (id : Text)
  | send (id : Text)
  | serve (i : Nat)
  | deliver (id : Text)
  | fail (id : Text)
  | release (id : Text)
  | drop (id : Text)
  deriving DecidableEq, Repr

open Flight in
/-- The steps. All that is not about the lease is answered anything. -/
inductive FlightStep (digest : Text → Text) (s : Flight) : FlightEvent → Flight → Prop
  | tick {clock} : s.server.clock ≤ clock → FlightStep digest s .tick { s with server := { s.server with clock } }
  | exchange {id c next} (answer : Answer c) : (s.clients id).program = .call c next → leaseCall c = false →
      FlightStep digest s (.exchange id) (s.put id ((s.clients id).goes next answer))
  | send {id staticKey request next} : (s.clients id).program = .call (.acquire staticKey request) next →
      (s.clients id).asked = .no → request.clientId = id →
      FlightStep digest s (.send id)
        { s.put id { s.clients id with asked := .sent } with
          server := { s.server with arrived := ⟨staticKey, request, s.server.clock⟩ :: s.server.arrived } }
  | serve {i a} : s.server.arrived[i]? = some a → FlightStep digest s (.serve i) (s.serve digest i a)
  | deliver {id staticKey request next response} : (s.clients id).program = .call (.acquire staticKey request) next →
      (s.clients id).asked = .answered response →
      FlightStep digest s (.deliver id) (s.put id ((s.clients id).goes next (.ok response)))
  | fail {id staticKey request next} (error : String) :
      (s.clients id).program = .call (.acquire staticKey request) next →
      FlightStep digest s (.fail id)
        { s.put id ((s.clients id).goes next (.error error)) with
          lost := (s.clients id).asked.grants id staticKey ++ s.lost }
  | release {id staticKey token next} : (s.clients id).program = .call (.release staticKey token) next →
      FlightStep digest s (.release id)
        { s.put id ((s.clients id).goes next ()) with server := s.server.release staticKey token }
  | drop {id staticKey token next} : (s.clients id).program = .call (.release staticKey token) next →
      FlightStep digest s (.drop id)
        { s.put id ((s.clients id).goes next ()) with
          lost := (s.server.held.filter fun g =>
            g.client = id ∧ g.staticKey = staticKey ∧ g.lease.token = token) ++ s.lost }

namespace Flight

/-- Wrappers that have not begun. -/
def init (jobs : Text → Naming × List OsText) : Flight where
  server := .init
  clients id := ⟨rustcWrapper (jobs id).1 (jobs id).2, [], .no⟩
  lost := []

/-- The wrapper has an unexpired lease on the key in hand. -/
def Holds (s : Flight) (id staticKey : Text) : Prop :=
  ∃ g ∈ s.server.held, g.client = id ∧ g.staticKey = staticKey ∧
    (s.clients id).ledger.lease = some (staticKey, g.lease.token) ∧ s.server.clock < g.lease.expiresMs

/-- What the wrappers and the server owe each other. -/
structure Safe (s : Flight) : Prop where
  /-- One wrapper at a time has an unexpired lease on a key. -/
  exclusive : ∀ staticKey id id', s.Holds id staticKey → s.Holds id' staticKey → id = id'
  /-- The lease in hand is one that the server granted, and until it expires the
  server makes the others wait for it. -/
  kept : ∀ id staticKey token, (s.clients id).ledger.lease = some (staticKey, token) →
    ∃ g ∈ s.server.held, g.client = id ∧ g.staticKey = staticKey ∧ g.lease.token = token ∧
      (s.server.clock < g.lease.expiresMs → s.server.leases.lookup staticKey = some g.lease)
  /-- rustc is started with the lease in hand, or with an excuse. -/
  compiles : ∀ id args env next, (s.clients id).program = .call (.rustc args env) next →
    (s.clients id).ledger.lease.isSome = true ∨ (s.clients id).ledger.connected = false ∨
      (s.clients id).ledger.patience.Over
  /-- A wrapper that has ended owns nothing, but for what was lost on the way. -/
  drained : ∀ id staticKey result, (s.clients id).program = .done result → s.server.Owns id staticKey →
    ∃ g ∈ s.lost, g.client = id ∧ g.staticKey = staticKey

/-! ## The invariant -/

/-- A grant is in its client's hand, on its way there, or lost. -/
def Accounted (lost : List Grant) (c : Client) (g : Grant) : Prop :=
  c.ledger.lease = some (g.staticKey, g.lease.token) ∨
    (c.asked = .answered (.owned g.lease.token g.lease.expiresMs) ∧ c.pendingKey = some g.staticKey) ∨ g ∈ lost

structure Inv (digest : Text → Text) (s : Flight) : Prop where
  server : s.server.Inv digest
  obeys : ∀ id, (s.clients id).program.Obeys Wrapper.ledger Settled (s.clients id).ledger
  answered : ∀ id response, (s.clients id).asked = .answered response → ∃ staticKey,
    (s.clients id).pendingKey = some staticKey ∧ ∀ g ∈ grantIn id staticKey response, g ∈ s.server.held
  held : ∀ id staticKey token, (s.clients id).ledger.lease = some (staticKey, token) →
    ∃ g ∈ s.server.held, g.client = id ∧ g.staticKey = staticKey ∧ g.lease.token = token
  accounted : ∀ g ∈ s.server.held, s.server.clock < g.lease.expiresMs → Accounted s.lost (s.clients g.client) g

variable {digest : Text → Text} {jobs : Text → Naming × List OsText} {s t : Flight}

theorem init_inv : (init jobs).Inv digest where
  server := LeaseState.init_inv
  obeys id := rustcWrapper_obeys _ _
  answered id response h := by cases h
  held id staticKey token h := by cases h
  accounted g hg := by cases hg

end Flight

/-! ### One client's step -/

namespace Client

variable {c : Client} {call : Call} {next : Answer call → Asking (Except String ExitStatus)} {answer : Answer call}

theorem ledger_goes : (c.goes next answer).ledger = c.ledger.enter call answer := Monitor.sees_concat _ _ _ _

/-- What it does next is permitted. -/
theorem permits (h : c.program.Obeys Wrapper.ledger Settled c.ledger) (hp : c.program = .call call next) :
    Permits c.ledger call := by
  rw [hp] at h
  exact h.1

theorem obeys_goes (h : c.program.Obeys Wrapper.ledger Settled c.ledger) (hp : c.program = .call call next) :
    (c.goes next answer).program.Obeys Wrapper.ledger Settled (c.goes next answer).ledger := by
  rw [hp] at h
  rw [ledger_goes]
  exact h.2 answer

/-- What is not about the lease leaves the one in hand. -/
theorem lease_goes (h : c.program.Obeys Wrapper.ledger Settled c.ledger) (hp : c.program = .call call next)
    (hcall : leaseCall call = false) : (c.goes next answer).ledger.lease = c.ledger.lease := by
  have hpermits := permits h hp
  have heq := enter_lease c.ledger ⟨call, answer⟩ hpermits
  have hgrant : grantOf ⟨call, answer⟩ = none := by
    cases call <;> first | rfl | cases hcall
  have hrelease : releaseOf ⟨call, answer⟩ = none := by
    cases call <;> first | rfl | cases hcall
  rw [hgrant, hrelease, Option.toList_none, List.append_nil, List.nil_append] at heq
  rw [ledger_goes]
  simpa using congrArg List.head? heq.symm

theorem pendingKey_of_call {staticKey : Text} {request : LeaseRequest}
    {next : Answer (.acquire staticKey request) → Asking (Except String ExitStatus)}
    (hp : c.program = .call (.acquire staticKey request) next) : c.pendingKey = some staticKey := by
  rw [pendingKey, hp]

/-- Who is not asking for a lease waits for no answer. -/
theorem pendingKey_eq_none (hp : c.program = .call call next)
    (hcall : ∀ staticKey request, call ≠ .acquire staticKey request) : c.pendingKey = none := by
  rw [pendingKey, hp]
  cases call <;> first | rfl | exact absurd rfl (hcall _ _)

end Client

namespace Flight

variable {digest : Text → Text} {jobs : Text → Naming × List OsText} {s t : Flight}

@[simp] theorem put_clients_self (id : Text) (c : Client) : (s.put id c).clients id = c := Function.update_self ..

theorem put_clients_of_ne {id id' : Text} (h : id' ≠ id) (c : Client) : (s.put id c).clients id' = s.clients id' :=
  Function.update_of_ne h ..

/-- What one client's step has to show, where the server takes no grant back. -/
theorem Inv.put (h : s.Inv digest) {id : Text} {c : Client} {server : LeaseState} {lost : List Grant}
    (hserver : server.Inv digest) (hclock : server.clock = s.server.clock)
    (hheld : ∀ g ∈ s.server.held, g ∈ server.held)
    (hnew : ∀ g ∈ server.held, g ∈ s.server.held ∨ g.client = id ∧ Accounted lost c g)
    (hlost : ∀ g ∈ s.lost, g ∈ lost) (hobeys : c.program.Obeys Wrapper.ledger Settled c.ledger)
    (hanswered : ∀ response, c.asked = .answered response → ∃ staticKey,
      c.pendingKey = some staticKey ∧ ∀ g ∈ grantIn id staticKey response, g ∈ server.held)
    (hlease : ∀ staticKey token, c.ledger.lease = some (staticKey, token) →
      ∃ g ∈ server.held, g.client = id ∧ g.staticKey = staticKey ∧ g.lease.token = token)
    (haccounted : ∀ g ∈ s.server.held, g.client = id → Accounted s.lost (s.clients id) g → Accounted lost c g) :
    Inv digest { s.put id c with server, lost } where
  server := hserver
  obeys id' := by
    by_cases he : id' = id
    · subst he
      rw [put_clients_self]
      exact hobeys
    · rw [put_clients_of_ne he]
      exact h.obeys id'
  answered id' response hasked := by
    by_cases he : id' = id
    · subst he
      rw [put_clients_self] at hasked ⊢
      exact hanswered response hasked
    · rw [put_clients_of_ne he] at hasked ⊢
      obtain ⟨staticKey, hpending, hgrants⟩ := h.answered id' response hasked
      exact ⟨staticKey, hpending, fun g hg => hheld g (hgrants g hg)⟩
  held id' staticKey token hl := by
    by_cases he : id' = id
    · subst he
      rw [put_clients_self] at hl
      exact hlease staticKey token hl
    · rw [put_clients_of_ne he] at hl
      obtain ⟨g, hg, hgrant⟩ := h.held id' staticKey token hl
      exact ⟨g, hheld g hg, hgrant⟩
  accounted g hg hlive := by
    rw [hclock] at hlive
    rcases hnew g hg with hold | ⟨he, hnew⟩
    · have hbefore := h.accounted g hold hlive
      by_cases he : g.client = id
      · rw [he] at hbefore
        rw [he, put_clients_self]
        exact haccounted g hold he hbefore
      · rw [put_clients_of_ne he]
        exact hbefore.imp_right (Or.imp_right (hlost g))
    · rw [he, put_clients_self]
      exact hnew

/-! ### The steps -/

section Steps

variable (h : s.Inv digest) {id : Text}

include h

theorem Inv.tick {clock : Nat} (hclock : s.server.clock ≤ clock) :
    Inv digest { s with server := { s.server with clock } } where
  server := ⟨fun a ha => (h.server.past a ha).trans hclock, h.server.signed, h.server.told,
    fun g hg hlive => h.server.stored g hg (lt_of_le_of_lt hclock hlive)⟩
  obeys := h.obeys
  answered := h.answered
  held := h.held
  accounted g hg hlive := h.accounted g hg (lt_of_le_of_lt hclock hlive)

theorem Inv.exchange {c : Call} {next : Answer c → Asking (Except String ExitStatus)} (answer : Answer c)
    (hp : (s.clients id).program = .call c next) (hcall : leaseCall c = false) :
    Inv digest (s.put id ((s.clients id).goes next answer)) := by
  have hlease := @Client.lease_goes (s.clients id) c next answer (h.obeys id) hp hcall
  refine h.put h.server rfl (fun _ hg => hg) (fun _ hg => .inl hg) (fun _ hg => hg)
    (Client.obeys_goes (h.obeys id) hp) (fun response hasked => ?_)
    (fun staticKey token hl => h.held id staticKey token (hlease ▸ hl)) fun g _ _ haccounted => ?_
  · cases hasked
  · rcases haccounted with hl | ⟨-, hpending⟩ | hlost
    · exact .inl (hlease.trans hl)
    · rw [Client.pendingKey_eq_none hp fun _ _ he => by rw [he] at hcall; cases hcall] at hpending
      cases hpending
    · exact .inr (.inr hlost)

theorem Inv.send {staticKey : Text} {request : LeaseRequest} (hasked : (s.clients id).asked = .no) :
    Inv digest { s.put id { s.clients id with asked := .sent } with
      server := { s.server with arrived := ⟨staticKey, request, s.server.clock⟩ :: s.server.arrived } } := by
  have hserver : LeaseState.Inv digest
      { s.server with arrived := ⟨staticKey, request, s.server.clock⟩ :: s.server.arrived } := by
    refine ⟨fun a ha => ?_, h.server.signed, h.server.told, h.server.stored⟩
    rcases List.mem_cons.1 ha with rfl | ha
    · exact le_refl _
    · exact h.server.past a ha
  refine h.put hserver rfl (fun _ hg => hg) (fun _ hg => .inl hg) (fun _ hg => hg)
    (h.obeys id) (fun response hanswered => by cases hanswered)
    (fun staticKey token hl => h.held id staticKey token hl) fun g _ _ haccounted => ?_
  rcases haccounted with hl | ⟨hanswered, -⟩ | hlost
  · exact .inl hl
  · rw [hasked] at hanswered
    cases hanswered
  · exact .inr (.inr hlost)

/-- The answer goes to who waits for it; a lease that nobody waits for is lost. -/
theorem Inv.serve {i : Nat} {a : Arrival} (ha : s.server.arrived[i]? = some a) : Inv digest (s.serve digest i a) := by
  have hserver := (h.server.taken i).acquire (h.server.past a (List.mem_of_getElem? ha))
  have hheld : (({ s.server with arrived := s.server.arrived.eraseIdx i } : LeaseState).acquire digest a).held =
      grantIn a.request.clientId a.staticKey (acquireLease digest s.server.leases a.now a.staticKey a.request).1 ++
        s.server.held := by
    dsimp only [LeaseState.acquire]
    cases (acquireLease digest s.server.leases a.now a.staticKey a.request).1 <;> rfl
  have hof : ∀ response, ∀ g ∈ grantIn a.request.clientId a.staticKey response,
      g.client = a.request.clientId ∧ g.staticKey = a.staticKey ∧ response = .owned g.lease.token g.lease.expiresMs := by
    intro response g hg
    cases response with
    | owned token expiresMs =>
      obtain rfl := List.mem_singleton.1 hg
      exact ⟨rfl, rfl, rfl⟩
    | wait retryAfterMs expiresMs => cases hg
  unfold Flight.serve
  split
  next hawaits =>
    obtain ⟨hsent, hpending⟩ := hawaits
    refine h.put hserver rfl (fun g hg => hheld ▸ List.mem_append_right _ hg) (fun g hg => ?_) (fun _ hg => hg)
      (h.obeys _) (fun response hasked => ?_) (fun staticKey token hl => ?_) fun g _ _ haccounted => ?_
    · rw [hheld] at hg
      rcases List.mem_append.1 hg with hg | hg
      · obtain ⟨hclient, hkey, hresponse⟩ := hof _ g hg
        exact .inr ⟨hclient, .inr (.inl ⟨by rw [hresponse], hpending.trans (congrArg some hkey.symm)⟩)⟩
      · exact .inl hg
    · obtain rfl := Asked.answered.inj hasked
      exact ⟨a.staticKey, hpending, fun g hg => hheld ▸ List.mem_append_left _ hg⟩
    · obtain ⟨g, hg, hgrant⟩ := h.held _ staticKey token hl
      exact ⟨g, hheld ▸ List.mem_append_right _ hg, hgrant⟩
    · rcases haccounted with hl | ⟨hanswered, -⟩ | hlost
      · exact .inl hl
      · rw [hsent] at hanswered
        cases hanswered
      · exact .inr (.inr hlost)
  next =>
    refine ⟨hserver, h.obeys, fun id response hasked => ?_, fun id staticKey token hl => ?_, fun g hg hlive => ?_⟩
    · obtain ⟨staticKey, hpending, hgrants⟩ := h.answered id response hasked
      exact ⟨staticKey, hpending, fun g hg => hheld ▸ List.mem_append_right _ (hgrants g hg)⟩
    · obtain ⟨g, hg, hgrant⟩ := h.held id staticKey token hl
      exact ⟨g, hheld ▸ List.mem_append_right _ hg, hgrant⟩
    · have hg : g ∈ _ := hg
      rw [hheld] at hg
      rcases List.mem_append.1 hg with hg | hg
      · exact .inr (.inr (List.mem_append_left _ hg))
      · exact (h.accounted g hg hlive).imp_right (Or.imp_right (List.mem_append_right _))

/-- A lease comes into empty hands. -/
theorem Inv.deliver {staticKey : Text} {request : LeaseRequest}
    {next : Answer (.acquire staticKey request) → Asking (Except String ExitStatus)} {response : LeaseResponse}
    (hp : (s.clients id).program = .call (.acquire staticKey request) next)
    (hasked : (s.clients id).asked = .answered response) :
    Inv digest (s.put id ((s.clients id).goes next (.ok response))) := by
  have hpermits := Client.permits (h.obeys id) hp
  have hempty : (s.clients id).ledger.lease = none := hpermits.2.2
  obtain ⟨key, hkey, hgrants⟩ := h.answered id response hasked
  obtain rfl : staticKey = key := Option.some.inj ((Client.pendingKey_of_call hp).symm.trans hkey)
  refine h.put h.server rfl (fun _ hg => hg) (fun _ hg => .inl hg) (fun _ hg => hg)
    (Client.obeys_goes (h.obeys id) hp) (fun response hanswered => by cases hanswered) (fun key token hl => ?_)
    fun g _ _ haccounted => ?_
  · have hentered := congrArg Ledger.lease (@Client.ledger_goes (s.clients id) _ next (.ok response))
    cases response with
    | owned token' expiresMs =>
      obtain ⟨rfl, rfl⟩ := Prod.mk.inj (Option.some.inj (hentered.symm.trans hl))
      exact ⟨_, hgrants _ List.mem_cons_self, rfl, rfl, rfl⟩
    | wait retryAfterMs expiresMs => cases (hentered.trans hempty).symm.trans hl
  · rcases haccounted with hl | ⟨hanswered, hpending⟩ | hlost
    · rw [hempty] at hl
      cases hl
    · obtain rfl := Asked.answered.inj (hasked.symm.trans hanswered)
      obtain rfl := Option.some.inj (hkey.symm.trans hpending)
      exact .inl (congrArg Ledger.lease (@Client.ledger_goes (s.clients id) _ next _))
    · exact .inr (.inr hlost)

theorem Inv.fail {staticKey : Text} {request : LeaseRequest}
    {next : Answer (.acquire staticKey request) → Asking (Except String ExitStatus)} (error : String)
    (hp : (s.clients id).program = .call (.acquire staticKey request) next) :
    Inv digest { s.put id ((s.clients id).goes next (.error error)) with
      lost := (s.clients id).asked.grants id staticKey ++ s.lost } := by
  have hpermits := Client.permits (h.obeys id) hp
  have hempty : (s.clients id).ledger.lease = none := hpermits.2.2
  have hempty' : ((s.clients id).goes next (.error error)).ledger.lease = none :=
    (congrArg Ledger.lease (@Client.ledger_goes (s.clients id) _ next (.error error))).trans hempty
  refine h.put h.server rfl (fun _ hg => hg) (fun _ hg => .inl hg) (fun _ hg => List.mem_append_right _ hg)
    (Client.obeys_goes (h.obeys id) hp) (fun response hanswered => by cases hanswered)
    (fun key token hl => by rw [hempty'] at hl; cases hl) fun g _ hclient haccounted => ?_
  rcases haccounted with hl | ⟨hanswered, hpending⟩ | hlost
  · rw [hempty] at hl
    cases hl
  · obtain rfl := Option.some.inj ((Client.pendingKey_of_call hp).symm.trans hpending)
    refine .inr (.inr (List.mem_append_left _ ?_))
    rw [hanswered, ← hclient]
    exact List.mem_cons_self
  · exact .inr (.inr (List.mem_append_right _ hlost))

/-- After its call the lease is no more in hand. -/
theorem Inv.lease_released {staticKey token : Text}
    {next : Answer (.release staticKey token) → Asking (Except String ExitStatus)}
    (hp : (s.clients id).program = .call (.release staticKey token) next) :
    (s.clients id).ledger.lease = some (staticKey, token) ∧ (s.clients id).pendingKey = none ∧
      ((s.clients id).goes next ()).ledger.lease = none := by
  have hpermits := Client.permits (h.obeys id) hp
  exact ⟨hpermits.2, Client.pendingKey_eq_none hp (fun _ _ he => by cases he),
    congrArg Ledger.lease (@Client.ledger_goes (s.clients id) _ next ())⟩

theorem Inv.drop {staticKey token : Text} {next : Answer (.release staticKey token) → Asking (Except String ExitStatus)}
    (hp : (s.clients id).program = .call (.release staticKey token) next) :
    Inv digest { s.put id ((s.clients id).goes next ()) with
      lost := (s.server.held.filter fun g =>
        g.client = id ∧ g.staticKey = staticKey ∧ g.lease.token = token) ++ s.lost } := by
  obtain ⟨hlease, hpending, hempty⟩ := h.lease_released hp
  refine h.put h.server rfl (fun _ hg => hg) (fun _ hg => .inl hg) (fun _ hg => List.mem_append_right _ hg)
    (Client.obeys_goes (h.obeys id) hp) (fun response hanswered => by cases hanswered)
    (fun key token hl => by rw [hempty] at hl; cases hl) fun g hg hclient haccounted => ?_
  rcases haccounted with hl | ⟨-, hkey⟩ | hlost
  · obtain ⟨rfl, rfl⟩ := Prod.mk.inj (Option.some.inj (hlease.symm.trans hl))
    exact .inr (.inr (List.mem_append_left _ (List.mem_filter.2 ⟨hg, by simp [hclient]⟩)))
  · rw [hpending] at hkey
    cases hkey
  · exact .inr (.inr (List.mem_append_right _ hlost))

/-- Only who has the lease in hand takes it from the server. -/
theorem Inv.release (hd : Function.Injective digest) {staticKey token : Text}
    {next : Answer (.release staticKey token) → Asking (Except String ExitStatus)}
    (hp : (s.clients id).program = .call (.release staticKey token) next) :
    Inv digest { s.put id ((s.clients id).goes next ()) with server := s.server.release staticKey token } := by
  obtain ⟨hlease, hpending, hempty⟩ := h.lease_released hp
  obtain ⟨own, hown, rfl, rfl, rfl⟩ := h.held id staticKey token hlease
  have hkept : ∀ g ∈ s.server.held, g.client ≠ own.client →
      g ∈ (s.server.release own.staticKey own.lease.token).held := fun g hg hne =>
    (h.server.released hd (h.server.told own hown) hg hne).1
  have hsub : (∀ g ∈ (s.server.release own.staticKey own.lease.token).held, g ∈ s.server.held) ∧
      (s.server.release own.staticKey own.lease.token).clock = s.server.clock := by
    rcases LeaseState.release_cases s.server own.staticKey own.lease.token with ⟨lease, -, -, he⟩ | ⟨-, he⟩
    · rw [he]
      exact ⟨fun g hg => (List.mem_filter.1 hg).1, rfl⟩
    · rw [he]
      exact ⟨fun g hg => hg, rfl⟩
  refine ⟨h.server.release _ _, fun id' => ?_, fun id' response hasked => ?_, fun id' key token hl => ?_,
    fun g hg hlive => ?_⟩
  · by_cases he : id' = own.client
    · subst he
      rw [put_clients_self]
      exact Client.obeys_goes (h.obeys _) hp
    · rw [put_clients_of_ne he]
      exact h.obeys id'
  · by_cases he : id' = own.client
    · subst he
      rw [put_clients_self] at hasked
      cases hasked
    · rw [put_clients_of_ne he] at hasked ⊢
      obtain ⟨key, hkey, hgrants⟩ := h.answered id' response hasked
      refine ⟨key, hkey, fun g hg => hkept g (hgrants g hg) ?_⟩
      cases response with
      | owned token expiresMs =>
        obtain rfl := List.mem_singleton.1 hg
        exact he
      | wait retryAfterMs expiresMs => cases hg
  · by_cases he : id' = own.client
    · subst he
      rw [put_clients_self, hempty] at hl
      cases hl
    · rw [put_clients_of_ne he] at hl
      obtain ⟨g, hg, hclient, hgrant⟩ := h.held id' key token hl
      exact ⟨g, hkept g hg (hclient ▸ he), hclient, hgrant⟩
  · have hold := hsub.1 g hg
    have hlive : s.server.clock < g.lease.expiresMs := hsub.2 ▸ hlive
    have hbefore := h.accounted g hold hlive
    by_cases he : g.client = own.client
    · rw [he] at hbefore
      rw [he, put_clients_self]
      rcases hbefore with hl | ⟨-, hkey⟩ | hlost
      · -- the server finds this lease, and takes it back
        obtain ⟨hkey, htoken⟩ := Prod.mk.inj (Option.some.inj (hlease.symm.trans hl))
        rcases LeaseState.release_cases s.server own.staticKey own.lease.token with ⟨lease, -, -, hreleased⟩ | ⟨hmissing, -⟩
        · rw [hreleased] at hg
          have hout := (List.mem_filter.1 hg).2
          simp [hkey, htoken] at hout
        · exact absurd htoken.symm (hmissing g.lease (hkey ▸ h.server.stored g hold hlive))
      · rw [hpending] at hkey
        cases hkey
      · exact .inr (.inr hlost)
    · rw [put_clients_of_ne he]
      exact hbefore

end Steps

theorem Inv.step (hd : Function.Injective digest) (h : s.Inv digest) {event : FlightEvent}
    (hs : FlightStep digest s event t) : t.Inv digest := by
  cases hs with
  | tick hclock => exact h.tick hclock
  | exchange answer hp hcall => exact h.exchange answer hp hcall
  | send hp hasked hid => exact h.send hasked
  | serve ha => exact h.serve ha
  | deliver hp hasked => exact h.deliver hp hasked
  | fail error hp => exact h.fail error hp
  | release hp => exact h.release hd hp
  | drop hp => exact h.drop hp

theorem Inv.safe (hd : Function.Injective digest) (h : s.Inv digest) : s.Safe where
  exclusive staticKey id id' hholds hholds' := by
    obtain ⟨g, hg, hclient, hkey, -, hlive⟩ := hholds
    obtain ⟨g', hg', hclient', hkey', -, hlive'⟩ := hholds'
    exact h.server.exclusive hd ⟨g, hg, hclient, hkey, hlive⟩ ⟨g', hg', hclient', hkey', hlive'⟩
  kept id staticKey token hl := by
    obtain ⟨g, hg, hclient, rfl, htoken⟩ := h.held id staticKey token hl
    exact ⟨g, hg, hclient, rfl, htoken, h.server.stored g hg⟩
  compiles id args env next hp := (Client.permits (h.obeys id) hp).2
  drained id staticKey result hdone howns := by
    obtain ⟨g, hg, rfl, rfl, hlive⟩ := howns
    refine ⟨g, ?_, rfl, rfl⟩
    have hended := h.obeys g.client
    rw [hdone] at hended
    rcases h.accounted g hg hlive with hl | ⟨-, hpending⟩ | hlost
    · rw [hended.released] at hl
      cases hl
    · rw [Client.pendingKey, hdone] at hpending
      cases hpending
    · exact hlost

/-- **Cold compiles are single-flight.** In every state that any number of
wrappers and the server reach. -/
theorem reachable_safe (digest : Text → Text) (hd : Function.Injective digest) (jobs : Text → Naming × List OsText)
    {s : Flight} (h : Transition.Reachable (FlightStep digest) (init jobs) s) : s.Safe :=
  (h.invariant (Inv digest) init_inv fun _ _ _ hi hs => hi.step hd hs).safe hd

/-! ## One cold compile -/

theorem put_put (id : Text) (c c' : Client) : (s.put id c).put id c' = s.put id c' := by
  simp [put]

/-- A client may be answered all that is not about the lease. -/
theorem reachable_exchanges {s₀ : Flight} {id : Text} {p q : Asking (Except String ExitStatus)}
    {history : List (Exchange Answer)} (hcalls : ∀ e ∈ history, leaseCall e.call = false) (ht : Takes p history q)
    {before : List (Exchange Answer)} (hs : Transition.Reachable (FlightStep digest) s₀ (s.put id ⟨p, before, .no⟩)) :
    Transition.Reachable (FlightStep digest) s₀ (s.put id ⟨q, before ++ history, .no⟩) := by
  induction ht generalizing before with
  | refl => rwa [List.append_nil]
  | @call c next answer history q _ ih =>
    obtain ⟨hcall, hcalls⟩ := List.forall_mem_cons.1 hcalls
    have hstep : FlightStep digest (s.put id ⟨.call c next, before, .no⟩) (.exchange id) _ :=
      .exchange answer (by rw [put_clients_self]) hcall
    have hnext := hs.tail hstep
    rw [put_clients_self, put_put] at hnext
    have hrest := ih hcalls hnext
    rwa [List.append_assoc] at hrest

/-- Asked for, a lease that nobody has is granted and delivered. -/
theorem reachable_granted {s₀ : Flight} {id staticKey : Text} {ttlMs : Nat} {history : List (Exchange Answer)}
    {next : Answer (.acquire staticKey ⟨id, ttlMs⟩) → Asking (Except String ExitStatus)}
    (hs : Transition.Reachable (FlightStep digest) s₀
      (s.put id ⟨.call (.acquire staticKey ⟨id, ttlMs⟩) next, history, .no⟩))
    (hfree : s.server.leases.lookup staticKey = none) :
    ∃ t, Transition.Reachable (FlightStep digest) s₀ t ∧ t.Holds id staticKey := by
  let asking : Asked → Client := fun asked => ⟨.call (.acquire staticKey ⟨id, ttlMs⟩) next, history, asked⟩
  let a : Arrival := ⟨staticKey, ⟨id, ttlMs⟩, s.server.clock⟩
  let arrived : LeaseState := { s.server with arrived := a :: s.server.arrived }
  have hsent : Transition.Reachable (FlightStep digest) s₀ { s.put id (asking .sent) with server := arrived } := by
    have hstep : FlightStep digest (s.put id (asking .no)) (.send id) _ :=
      .send (congrArg Client.program (put_clients_self _ _)) (congrArg Client.asked (put_clients_self _ _)) rfl
    rw [put_clients_self, put_put] at hstep
    exact hs.tail hstep
  obtain ⟨token, expiresMs, hlive, howned⟩ : ∃ token expiresMs, s.server.clock < expiresMs ∧
      (acquireLease digest s.server.leases a.now staticKey a.request).1 = .owned token expiresMs := by
    refine ⟨_, _, ?_, by rw [acquireLease_owned fun lease hl => by rw [hfree] at hl; cases hl]⟩
    have : 1000 ≤ a.request.ttl := le_max_left _ _
    show s.server.clock < s.server.clock + _
    omega
  have hserved : Transition.Reachable (FlightStep digest) s₀
      { s.put id (asking (.answered (.owned token expiresMs))) with server := s.server.acquire digest a } := by
    have hstep : FlightStep digest { s.put id (asking .sent) with server := arrived } (.serve 0) _ := .serve rfl
    have hawaits : ({ s.put id (asking .sent) with server := arrived } : Flight).Awaits a := by
      have hclient := put_clients_self (s := s) id (asking .sent)
      exact ⟨congrArg Client.asked hclient, congrArg Client.pendingKey hclient⟩
    have hserve : Flight.serve digest { s.put id (asking .sent) with server := arrived } 0 a =
        { s.put id (asking (.answered (.owned token expiresMs))) with server := s.server.acquire digest a } := by
      rw [Flight.serve, if_pos hawaits]
      simp only [put, arrived, howned, List.eraseIdx_cons_zero, a, Function.update_self, Function.update_idem, asking]
    rw [hserve] at hstep
    exact hsent.tail hstep
  have hclient := put_clients_self (s := s) id (asking (.answered (.owned token expiresMs)))
  have hstep : FlightStep digest
      { s.put id (asking (.answered (.owned token expiresMs))) with server := s.server.acquire digest a } (.deliver id) _ :=
    .deliver (congrArg Client.program hclient) (congrArg Client.asked hclient)
  refine ⟨_, hserved.tail hstep, ⟨id, staticKey, ⟨token, expiresMs⟩⟩, ?_, rfl, rfl, ?_, ?_⟩
  · have hheld : (⟨id, staticKey, ⟨token, expiresMs⟩⟩ : Grant) ∈ (s.server.acquire digest a).held := by
      simp only [LeaseState.acquire, a, howned, List.mem_cons_self]
    exact hheld
  · rw [put_clients_self]
    exact congrArg Ledger.lease (@Client.ledger_goes _ _ next (.ok (.owned token expiresMs)))
  · exact hlive

/-- A crate, with a server that has no candidate for it. -/
def soloAnalysis : Analysis where
  kind := .library
  explicitInputs := []
  staticLibraries := []
  nativeSearch := []
  msvc := false
  rustc := []
  args := []
  crateName := ['d']
  outDir := ['o']
  naming := ⟨"", "lib", ".so", false⟩
  stems := []
  expectedNames := ∅
  procMacros := []
  incremental := none
  unit := ['d']
  procMacroCrate := false
  responseFile := false

def soloIdentity : BuildIdentity where
  workspace := []
  normalizer := ⟨[]⟩
  checkout := none
  staticKey := ['k']
  rootNormalizer := ⟨[]⟩
  pins := []
  virtualEnv := []
  diagnosticWidth := none
  names_nodup := .nil
  pinned _ _ h := absurd rfl h
  named _ h := absurd h List.not_mem_nil

/-- What a wrapper is answered until it asks for the lease. -/
def soloHistory : List (Exchange Answer) :=
  [⟨.var "BELLOWS_LOCAL_ONLY", (none : Option String)⟩, ⟨.analyze [], (.ok soloAnalysis : Except String Analysis)⟩,
    ⟨.buildIdentity soloAnalysis, (.ok soloIdentity : Except String BuildIdentity)⟩,
    ⟨.var "BELLOWS_SERVER", (none : Option String)⟩, ⟨.var "BELLOWS_AUTH_TOKEN", (none : Option String)⟩,
    ⟨.connect "http://127.0.0.1:7878" none, (.ok () : Except String Unit)⟩, ⟨.var "BELLOWS_L1", (some "0" : Option String)⟩,
    ⟨.rememberIdentity, (.ok "new" : Except String String)⟩,
    ⟨.remoteCandidates ['k'], (.ok [] : Except String (List ActionCandidate))⟩,
    ⟨.record ⟨"miss", ['d'], some ['k'], none, "new"⟩, ()⟩, ⟨.pid, (1 : Nat)⟩, ⟨.nowMs, (2 : Nat)⟩]

theorem takes_solo : ∃ next, Takes (rustcWrapper ⟨"", "lib", ".so", false⟩ []) soloHistory
    (.call (.acquire ['k'] ⟨"1-2".toList, 120000⟩) next) := by
  apply Exists.intro
  unfold soloHistory
  iterate 12 apply Takes.call
  exact .refl

def soloStart : Flight := init fun _ => (⟨"", "lib", ".so", false⟩, [])

theorem reachable_safe_solo : ∃ s, Transition.Reachable (FlightStep fun text => text) soloStart s ∧
    s.Holds "1-2".toList ['k'] ∧ s.Safe := by
  obtain ⟨next, ht⟩ := takes_solo
  have hstart : Transition.Reachable (FlightStep fun text => text) soloStart
      (soloStart.put "1-2".toList ⟨rustcWrapper ⟨"", "lib", ".so", false⟩ [], [], .no⟩) := by
    have hsame : soloStart.put "1-2".toList ⟨rustcWrapper ⟨"", "lib", ".so", false⟩ [], [], .no⟩ = soloStart := by
      simp [put, soloStart, init]
    rw [hsame]
    exact .refl
  obtain ⟨s, hs, hholds⟩ := reachable_granted (reachable_exchanges (by decide) ht hstart) rfl
  exact ⟨s, hs, hholds, reachable_safe _ (fun _ _ h => h) _ hs⟩

end Flight

end Bellows.Cli.Wrapper
