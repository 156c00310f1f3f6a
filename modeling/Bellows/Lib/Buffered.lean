/-
Cutting a stream after each terminator: all at once (`splitInclusive`), and one
piece at a time off a buffer (`takeLine`). What a buffer has no terminator for
yet waits for what is to come, and the pieces are the same.
-/
import Mathlib.Data.List.Infix

namespace Buffered

variable {α : Type} [DecidableEq α]

/-- What the buffer holds up to its first terminator, and what is left of it. -/
def takeLine (stop : α) (pending : List α) : Option (List α × List α) :=
  (pending.findIdx? (· == stop)).map fun ending => (pending.take (ending + 1), pending.drop (ending + 1))

/-- `split_inclusive` -/
def splitInclusive (stop : α) : List α → List (List α)
  | [] => []
  | c :: rest =>
    if c = stop then [c] :: splitInclusive stop rest
    else match splitInclusive stop rest with
      | [] => [[c]]
      | line :: lines => (c :: line) :: lines

theorem takeLine_eq_none {stop : α} {pending : List α} (h : takeLine stop pending = none) : stop ∉ pending := by
  rw [takeLine, Option.map_eq_none_iff, List.findIdx?_eq_none_iff] at h
  intro hmem
  simpa using h stop hmem

theorem takeLine_eq_some {stop : α} {pending line rest : List α} (h : takeLine stop pending = some (line, rest)) :
    pending = line ++ rest ∧ ∃ body, stop ∉ body ∧ line = body ++ [stop] := by
  obtain ⟨ending, hfound, hcut⟩ := Option.map_eq_some_iff.1 h
  obtain ⟨rfl, rfl⟩ := Prod.mk.inj hcut
  obtain ⟨hlt, hat, hbefore⟩ := List.findIdx?_eq_some_iff_getElem.1 hfound
  refine ⟨(List.take_append_drop _ _).symm, pending.take ending, ?_, ?_⟩
  · intro hmem
    obtain ⟨i, hi, hstop⟩ := List.mem_take_iff_getElem.1 hmem
    have hne := hbefore i (by omega)
    simp [hstop] at hne
  · have hstop : pending[ending] = stop := by simpa using hat
    rw [List.take_succ_eq_append_getElem hlt, hstop]

/-- A line off the buffer leaves less. -/
theorem takeLine_lt {stop : α} {pending line rest : List α} (h : takeLine stop pending = some (line, rest)) :
    rest.length < pending.length := by
  obtain ⟨rfl, body, -, rfl⟩ := takeLine_eq_some h
  simp only [List.length_append, List.length_cons, List.length_nil]
  omega

theorem splitInclusive_line {stop : α} (rest : List α) : ∀ {body : List α}, stop ∉ body →
    splitInclusive stop (body ++ stop :: rest) = (body ++ [stop]) :: splitInclusive stop rest
  | [], _ => by simp [splitInclusive]
  | c :: body, h => by
    obtain ⟨hc, hbody⟩ := List.ne_and_not_mem_of_not_mem_cons h
    simp only [List.cons_append, splitInclusive, if_neg (Ne.symm hc), splitInclusive_line rest hbody]

theorem splitInclusive_open {stop : α} : ∀ {text : List α}, stop ∉ text → text ≠ [] →
    splitInclusive stop text = [text]
  | [c], h, _ => by
    have hc : c ≠ stop := by simpa [eq_comm] using h
    simp only [splitInclusive, if_neg hc]
  | c :: d :: text, h, _ => by
    obtain ⟨hc, htext⟩ := List.ne_and_not_mem_of_not_mem_cons h
    rw [splitInclusive, if_neg (Ne.symm hc), splitInclusive_open htext (List.cons_ne_nil _ _)]

/-- A line off the buffer is the first of the stream, however it goes on. -/
theorem splitInclusive_takeLine {stop : α} {pending line rest : List α}
    (h : takeLine stop pending = some (line, rest)) (more : List α) :
    splitInclusive stop (pending ++ more) = line :: splitInclusive stop (rest ++ more) := by
  obtain ⟨rfl, body, hbody, rfl⟩ := takeLine_eq_some h
  simpa using splitInclusive_line (rest ++ more) hbody

/-! ## Pieces as such -/

/-- Pieces with one terminator each, at the end; the last may have none. -/
inductive Cut (stop : α) : List (List α) → Prop
  | nil : Cut stop []
  | last {piece : List α} : stop ∉ piece → piece ≠ [] → Cut stop [piece]
  | line {body : List α} {pieces : List (List α)} : stop ∉ body → Cut stop pieces →
      Cut stop ((body ++ [stop]) :: pieces)

theorem cut_splitInclusive (stop : α) : ∀ text : List α, Cut stop (splitInclusive stop text)
  | [] => .nil
  | c :: rest => by
    have ih := cut_splitInclusive stop rest
    rw [splitInclusive]
    split
    · next hc =>
      have hnil : stop ∉ ([] : List α) := by simp
      rw [hc]
      exact Cut.line hnil ih
    · next hc =>
      cases hrest : splitInclusive stop rest with
      | nil => exact .last (by simpa [eq_comm] using hc) (List.cons_ne_nil _ _)
      | cons line lines =>
        rw [hrest] at ih
        cases ih with
        | last hopen _ => exact .last (List.not_mem_cons_of_ne_of_not_mem (Ne.symm hc) hopen) (List.cons_ne_nil _ _)
        | line hbody hlines => exact Cut.line (List.not_mem_cons_of_ne_of_not_mem (Ne.symm hc) hbody) hlines

/-- They are the pieces of the text they make. -/
theorem Cut.splitInclusive_flatten {stop : α} {pieces : List (List α)} (h : Cut stop pieces) :
    splitInclusive stop pieces.flatten = pieces := by
  induction h with
  | nil => rfl
  | last hopen hne => simpa using splitInclusive_open hopen hne
  | line hbody _ ih =>
    rw [List.flatten_cons, List.append_assoc, List.singleton_append, splitInclusive_line _ hbody, ih]

omit [DecidableEq α] in
/-- A rewriting that keeps the ends of the pieces. -/
theorem Cut.map {stop : α} {rewrite : List α → List α} {pieces : List (List α)} (h : Cut stop pieces)
    (hline : ∀ body, body ++ [stop] ∈ pieces → stop ∉ body →
      ∃ body', stop ∉ body' ∧ rewrite (body ++ [stop]) = body' ++ [stop])
    (hlast : ∀ piece ∈ pieces, stop ∉ piece → piece ≠ [] → stop ∉ rewrite piece ∧ rewrite piece ≠ []) :
    Cut stop (pieces.map rewrite) := by
  induction h with
  | nil => exact .nil
  | last hopen hne =>
    obtain ⟨hopen', hne'⟩ := hlast _ List.mem_cons_self hopen hne
    exact .last hopen' hne'
  | line hbody _ ih =>
    obtain ⟨body', hbody', hrewrite⟩ := hline _ List.mem_cons_self hbody
    rw [List.map_cons, hrewrite]
    exact .line hbody' (ih (fun body hmem => hline body (List.mem_cons_of_mem _ hmem))
      fun piece hmem => hlast piece (List.mem_cons_of_mem _ hmem))

end Buffered
