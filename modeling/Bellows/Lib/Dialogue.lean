/-
Programs that ask what is outside of them, and may be answered anything: the
calls a program makes, and what it does with each answer.

A program is checked against a monitor, which sees each call with its answer
and says which call may come next. The rules follow the ways a program is
built; `Obeys.takes` says what they are worth: whatever the answers were, every
call that was made was allowed when it was made, and so far the program still
obeys.
-/
import Mathlib.Tactic.Common
import Bellows.Lib.Run

/-- A program that ends in an `α`, or makes a call and goes on with the
answer. -/
inductive Dialogue {Call : Type} (Answer : Call → Type) (α : Type) where
  | done (a : α)
  | call (c : Call) (next : Answer c → Dialogue Answer α)

namespace Dialogue

variable {Call : Type} {Answer : Call → Type} {α β σ : Type}

def bind : Dialogue Answer α → (α → Dialogue Answer β) → Dialogue Answer β
  | .done a, f => f a
  | .call c next, f => .call c fun answer => (next answer).bind f

instance : Monad (Dialogue Answer) where
  pure := .done
  bind := .bind

/-- One call. -/
def ask (c : Call) : Dialogue Answer (Answer c) := .call c .done

/-- A call and what was answered. -/
structure Exchange {Call : Type} (Answer : Call → Type) where
  call : Call
  answer : Answer call

/-- With these exchanges, `p` comes to `q`. -/
inductive Takes : Dialogue Answer α → List (Exchange Answer) → Dialogue Answer α → Prop
  | refl {p} : Takes p [] p
  | call {c next answer history q} : Takes (next answer) history q → Takes (.call c next) (⟨c, answer⟩ :: history) q

theorem Takes.trans {p q r : Dialogue Answer α} {history later : List (Exchange Answer)} (h : Takes p history q)
    (h' : Takes q later r) : Takes p (history ++ later) r := by
  induction h with
  | refl => exact h'
  | call _ ih => exact .call (ih h')

/-- What a program comes to, so does what goes on from it. -/
theorem Takes.bind {p q : Dialogue Answer α} {history : List (Exchange Answer)} (h : Takes p history q)
    (f : α → Dialogue Answer β) : Takes (p >>= f) history (q >>= f) := by
  induction h with
  | refl => exact .refl
  | call _ ih => exact .call ih

/-! ### Where the answers are known -/

/-- The call that waits for its answer. -/
def pending : Dialogue Answer α → Option Call
  | .done _ => none
  | .call c _ => some c

/-- What the program is when `n` calls have been answered. -/
def play (answers : (c : Call) → Answer c) : Nat → Dialogue Answer α → Dialogue Answer α
  | n + 1, .call c next => play answers n (next (answers c))
  | 0, p => p
  | _, .done a => .done a

theorem play_succ {answers : (c : Call) → Answer c} {p : Dialogue Answer α} {c : Call} (n : Nat)
    (h : (play answers n p).pending = some c) :
    ∃ next, play answers n p = .call c next ∧ play answers (n + 1) p = next (answers c) := by
  induction n generalizing p with
  | zero =>
    cases p with
    | done a => cases h
    | call c' next =>
      obtain rfl : c' = c := Option.some.inj h
      exact ⟨next, rfl, rfl⟩
  | succ n ih =>
    cases p with
    | done a => cases h
    | call c' next => exact ih h

/-! ## Monitors -/

/-- What may be called, by what the exchanges so far have come to. -/
structure Monitor {Call : Type} (Answer : Call → Type) (σ : Type) where
  allows : σ → Call → Prop
  after : σ → (c : Call) → Answer c → σ

/-- The monitor's state after some exchanges. -/
def Monitor.sees (m : Monitor Answer σ) (s : σ) (history : List (Exchange Answer)) : σ :=
  history.foldl (fun s e => m.after s e.call e.answer) s

@[simp] theorem Monitor.sees_nil (m : Monitor Answer σ) (s : σ) : m.sees s [] = s := rfl

theorem Monitor.sees_concat (m : Monitor Answer σ) (s : σ) (history : List (Exchange Answer))
    (e : Exchange Answer) : m.sees s (history ++ [e]) = m.after (m.sees s history) e.call e.answer := by
  simp [sees]

/-- Every call of the program is allowed, and what it ends in satisfies `Q`,
whatever is answered. -/
def Obeys (m : Monitor Answer σ) (Q : σ → α → Prop) : Dialogue Answer α → σ → Prop
  | .done a, s => Q s a
  | .call c next, s => m.allows s c ∧ ∀ answer, (next answer).Obeys m Q (m.after s c answer)

section Rules

variable {m : Monitor Answer σ} {Q R : σ → α → Prop} {p : Dialogue Answer α} {s : σ}

theorem Obeys.mono (h : p.Obeys m Q s) (hQR : ∀ s a, Q s a → R s a) : p.Obeys m R s := by
  induction p generalizing s with
  | done a => exact hQR s a h
  | call c next ih => exact ⟨h.1, fun answer => ih answer (h.2 answer)⟩

/-- The rule of composition. -/
theorem obeys_bind {f : α → Dialogue Answer β} {R : σ → β → Prop} :
    (p >>= f).Obeys m R s ↔ p.Obeys m (fun s a => (f a).Obeys m R s) s := by
  induction p generalizing s with
  | done a => exact Iff.rfl
  | call c next ih => exact and_congr_right fun _ => forall_congr' fun answer => ih answer

theorem Obeys.bind {f : α → Dialogue Answer β} {R : σ → β → Prop} (h : p.Obeys m Q s)
    (hf : ∀ s a, Q s a → (f a).Obeys m R s) : (p >>= f).Obeys m R s :=
  obeys_bind.2 (h.mono hf)

theorem Obeys.ask_bind {c : Call} {f : Answer c → Dialogue Answer β} {R : σ → β → Prop} (hc : m.allows s c)
    (hf : ∀ answer, (f answer).Obeys m R (m.after s c answer)) : (ask c >>= f).Obeys m R s := ⟨hc, hf⟩

/-- What one round keeps, a loop over a list keeps. -/
theorem obeys_forM {I : σ → Prop} {step : β → Dialogue Answer PUnit} :
    ∀ (l : List β) {s : σ}, I s → (∀ b ∈ l, ∀ s, I s → (step b).Obeys m (fun s _ => I s) s) →
      (l.forM step).Obeys m (fun s _ => I s) s
  | [], _, hs, _ => hs
  | b :: l, s, hs, hstep => by
    obtain ⟨hb, hl⟩ := List.forall_mem_cons.1 hstep
    exact (hb s hs).bind fun t _ ht => obeys_forM l ht hl

/-- Whatever was answered, the calls were allowed. -/
theorem Obeys.takes {history : List (Exchange Answer)} {q : Dialogue Answer α} (ht : Takes p history q)
    (h : p.Obeys m Q s) : q.Obeys m Q (m.sees s history) ∧
      ∀ before e after, history = before ++ e :: after → m.allows (m.sees s before) e.call := by
  induction ht generalizing s with
  | refl => exact ⟨h, fun before e after he => by simp at he⟩
  | @call c next answer history q _ ih =>
    obtain ⟨hq, hallowed⟩ := ih (h.2 answer)
    refine ⟨hq, fun before e after he => ?_⟩
    cases before with
    | nil =>
      obtain ⟨rfl, -⟩ := List.cons.inj he
      exact h.1
    | cons first before =>
      obtain ⟨rfl, htail⟩ := List.cons.inj he
      exact hallowed before e after htail

theorem Obeys.takes_done {history : List (Exchange Answer)} {a : α} (ht : Takes p history (.done a))
    (h : p.Obeys m Q s) : Q (m.sees s history) a := (h.takes ht).1

end Rules

/-! ## Programs that may fail -/

/-- A program that ends in an `α` or an error. -/
abbrev Fallible {Call : Type} (Answer : Call → Type) (ε α : Type) := ExceptT ε (Dialogue Answer) α

variable {ε : Type}

/-- A call whose answer is read, and may be refused. -/
def tryAsk (c : Call) (read : Answer c → Except ε α) : Fallible Answer ε α :=
  ExceptT.mk (.call c fun answer => .done (read answer))

/-- What cannot fail, or has failed already. -/
def settled (result : Except ε α) : Fallible Answer ε α := ExceptT.mk (.done result)

/-- A failure is an answer too. -/
def attempt (p : Fallible Answer ε α) : Fallible Answer ε (Except ε α) :=
  ExceptT.mk (p.run >>= fun result => .done (.ok result))

/-- Every call is allowed, `I` holds at the end, and `Q` where it has not
failed. -/
def Attempts (m : Monitor Answer σ) (I : σ → Prop) (Q : σ → α → Prop) (p : Fallible Answer ε α) (s : σ) : Prop :=
  p.run.Obeys m (fun s result => I s ∧ ∀ a, result = .ok a → Q s a) s

section Fallible

variable {m : Monitor Answer σ} {I : σ → Prop} {Q : σ → α → Prop} {p : Fallible Answer ε α} {s : σ}

theorem Attempts.mono {J : σ → Prop} {R : σ → α → Prop} (h : Attempts m I Q p s) (hI : ∀ s, I s → J s)
    (hQ : ∀ s a, I s → Q s a → R s a) : Attempts m J R p s :=
  Obeys.mono h fun s _ hs => ⟨hI s hs.1, fun a ha => hQ s a hs.1 (hs.2 a ha)⟩

/-- The rule of composition; on the way `J` may be more than is kept. -/
theorem Attempts.bindTo {f : α → Fallible Answer ε β} {J : σ → Prop} {R : σ → β → Prop} (h : Attempts m J Q p s)
    (hJI : ∀ s, J s → I s) (hf : ∀ s a, J s → Q s a → Attempts m I R (f a) s) : Attempts m I R (p >>= f) s := by
  refine obeys_bind.2 (Obeys.mono h fun s result hs => ?_)
  cases result with
  | ok a => exact hf s a hs.1 (hs.2 a rfl)
  | error e => exact ⟨hJI s hs.1, fun _ h => by cases h⟩

theorem Attempts.bind {f : α → Fallible Answer ε β} {R : σ → β → Prop} (h : Attempts m I Q p s)
    (hf : ∀ s a, I s → Q s a → Attempts m I R (f a) s) : Attempts m I R (p >>= f) s := h.bindTo (fun _ hs => hs) hf

theorem attempts_tryAsk {c : Call} {read : Answer c → Except ε α} (hc : m.allows s c)
    (hI : ∀ answer, I (m.after s c answer)) (hQ : ∀ answer a, read answer = .ok a → Q (m.after s c answer) a) :
    Attempts m I Q (tryAsk c read) s := ⟨hc, fun answer => ⟨hI answer, hQ answer⟩⟩

theorem Attempts.tryAsk_bind {c : Call} {read : Answer c → Except ε α} {f : α → Fallible Answer ε β} {R : σ → β → Prop}
    (hc : m.allows s c) (hfail : ∀ answer e, read answer = .error e → I (m.after s c answer))
    (hf : ∀ answer a, read answer = .ok a → Attempts m I R (f a) (m.after s c answer)) :
    Attempts m I R (tryAsk c read >>= f) s := by
  refine obeys_bind.2 ⟨hc, fun answer => ?_⟩
  show Obeys m _ (ExceptT.bindCont f (read answer)) _
  cases hread : read answer with
  | ok a => exact hf answer a hread
  | error e => exact ⟨hfail answer e hread, fun _ h => by cases h⟩

theorem attempts_settled {result : Except ε α} (hI : I s) (hQ : ∀ a, result = .ok a → Q s a) :
    Attempts m I Q (settled result) s := ⟨hI, hQ⟩

theorem attempts_pure {a : α} (hI : I s) (hQ : Q s a) : Attempts m I Q (pure a : Fallible Answer ε α) s :=
  ⟨hI, fun _ h => Except.ok.inj h ▸ hQ⟩

/-- What failed may be gone on from, whatever it kept. -/
theorem Attempts.attempt_bind {f : Except ε α → Fallible Answer ε β} {J : σ → Prop} {R : σ → β → Prop}
    (h : Attempts m J Q p s) (hf : ∀ s result, J s → (∀ a, result = .ok a → Q s a) → Attempts m I R (f result) s) :
    Attempts m I R (attempt p >>= f) s :=
  obeys_bind.2 (obeys_bind.2 (Obeys.mono h fun s result hs => hf s result hs.1 hs.2))

theorem Attempts.attempt_tryAsk_bind {c : Call} {read : Answer c → Except ε α} {f : Except ε α → Fallible Answer ε β}
    {R : σ → β → Prop} (hc : m.allows s c) (hf : ∀ answer, Attempts m I R (f (read answer)) (m.after s c answer)) :
    Attempts m I R (attempt (tryAsk c read) >>= f) s := ⟨hc, hf⟩

theorem attempts_forM {step : β → Fallible Answer ε PUnit} : ∀ (l : List β) {s : σ}, I s →
    (∀ b ∈ l, ∀ s, I s → Attempts m I (fun _ _ => True) (step b) s) → Attempts m I (fun _ _ => True) (l.forM step) s
  | [], _, hs, _ => attempts_pure hs trivial
  | b :: l, s, hs, hstep => by
    obtain ⟨hb, hl⟩ := List.forall_mem_cons.1 hstep
    exact (hb s hs).bind fun t _ ht _ => attempts_forM l ht hl

end Fallible

end Dialogue
