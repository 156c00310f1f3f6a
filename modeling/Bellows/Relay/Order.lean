/-
Background work in acceptance order (`Order` of `relay.rs`): numbers are
handed out in turn, and a horizon is passed once every number below it that
was handed out is finished.
-/
import Mathlib.Data.List.Basic

namespace Bellows.Relay

structure Order where
  /-- The next number. -/
  next : Nat
  /-- The numbers begun and not finished, in order. -/
  opened : List Nat
  deriving DecidableEq, Repr

namespace Order

def new : Order := ⟨0, []⟩

/-- The number begun, and the order then. -/
def begin (o : Order) : Nat × Order := (o.next, ⟨o.next + 1, o.opened ++ [o.next]⟩)

def horizon (o : Order) : Nat := o.next

def finish (o : Order) (sequence : Nat) : Order := { o with opened := o.opened.filter (· ≠ sequence) }

/-- Whether `wait_before` returns: the first open number is not below the horizon. -/
def passed (o : Order) (horizon : Nat) : Bool := o.opened.min?.all (horizon ≤ ·)

variable {o : Order} {q : Nat}

@[simp] theorem mem_opened_begin : q ∈ o.begin.2.opened ↔ q ∈ o.opened ∨ q = o.next := by
  simp [begin]

@[simp] theorem mem_opened_finish {sequence : Nat} : q ∈ (o.finish sequence).opened ↔ q ∈ o.opened ∧ q ≠ sequence := by
  simp [finish]

/-- Past a horizon nothing below it is open. -/
theorem not_mem_of_passed {horizon : Nat} (h : o.passed horizon = true) (hq : q < horizon) : q ∉ o.opened := by
  intro hmem
  cases hmin : o.opened.min? with
  | none =>
    rw [List.min?_eq_none_iff] at hmin
    rw [hmin] at hmem
    cases hmem
  | some first =>
    have hle := (List.min?_eq_some_iff.1 hmin).2 q hmem
    simp only [passed, hmin, Option.all_some, decide_eq_true_eq] at h
    omega

end Order

end Bellows.Relay
