/-
What rustc prints passed on as it comes, with this checkout's roots in place of
the virtual ones (`tee_devirtualized`).

Lines are rewritten one by one, and a read may end anywhere; what is passed on,
and what is kept of it for later replays, is what rewriting the whole stream's
lines gives.
-/
import Bellows.Cli.Candidate
import Bellows.Lib.Buffered
import Bellows.Lib.Json
import Bellows.Lib.Prog

namespace Bellows.Cli

open Bellows.Core

/-! ## A line -/

/-- The reader and the writer of JSON. -/
structure JsonCodec where
  /-- `serde_json::from_slice` -/
  fromSlice : List UInt8 → Option Json.Value
  /-- `serde_json::to_vec` -/
  toVec : Json.Value → List UInt8

mutual

/-- `visit`: keys stay as they are. -/
def visit (replace : Text → Text) : Json.Value → Json.Value
  | .string text => .string (replace text)
  | .array values => .array (visitAll replace values)
  | .object members => .object (visitMembers replace members)
  | value => value

def visitAll (replace : Text → Text) : List Json.Value → List Json.Value
  | [] => []
  | value :: values => visit replace value :: visitAll replace values

def visitMembers (replace : Text → Text) : List (Text × Json.Value) → List (Text × Json.Value)
  | [] => []
  | (name, value) :: members => (name, visit replace value) :: visitMembers replace members

end

/-- `strip_suffix`, or the bytes as they are. -/
def withoutSuffix (suffix bytes : List UInt8) : List UInt8 :=
  if suffix.isSuffixOf bytes then bytes.take (bytes.length - suffix.length) else bytes

def replaceRoots (roots : List (Text × Text)) (text : Text) : Text :=
  roots.foldl (fun text root => Text.replaceAll root.1 root.2 text) text

def devirtualizeLine (json : JsonCodec) (roots : List (Text × Text)) (line : List UInt8) : List UInt8 :=
  if roots.any fun root => decide (utf8 root.1 <:+: line) then
    let body := withoutSuffix [13] (withoutSuffix [10] line)
    let ending := line.drop body.length
    match json.fromSlice body with
    | some (.object members) => json.toVec (visit (replaceRoots roots) (.object members)) ++ ending
    | _ =>
      match fromUtf8 line with
      | some text => utf8 (replaceRoots roots text)
      | none => line
  else line

/-! ## The stream -/

/-- Where the bytes are passed on to; a flush passes on nothing more. -/
structure Writer where
  written : List UInt8
  /-- How many more bytes it takes before it fails, if it does. -/
  room : Option Nat

def writeAll (bytes : List UInt8) : Prog Writer Text Unit := do
  let w ← get
  match w.room with
  | none => set { w with written := w.written ++ bytes }
  | some room =>
    set { w with written := w.written ++ bytes.take room, room := some (room - bytes.length) }
    if room < bytes.length then throw "write".toList

/-- The loop over the lines that the buffer holds whole. What is left in it,
and what is captured. -/
def drainLines (json : JsonCodec) (roots : List (Text × Text)) (pending captured : List UInt8) :
    Prog Writer Text (List UInt8 × List UInt8) :=
  match _h : Buffered.takeLine 10 pending with
  | none => pure (pending, captured)
  | some (line, rest) => do
    let line := devirtualizeLine json roots line
    writeAll line
    drainLines json roots rest (captured ++ line)
termination_by pending.length
decreasing_by exact Buffered.takeLine_lt _h

/-- The loop over what each `read` returns: nothing at the end of the stream. -/
def readLoop (json : JsonCodec) (roots : List (Text × Text)) :
    List (Except Text (List UInt8)) → List UInt8 → List UInt8 → Prog Writer Text (List UInt8 × List UInt8)
  | [], pending, captured => pure (pending, captured)
  | .error e :: _, _, _ => throw e
  | .ok chunk :: reader, pending, captured =>
    if chunk = [] then pure (pending, captured)
    else do
      let (pending, captured) ← drainLines json roots (pending ++ chunk) captured
      readLoop json roots reader pending captured

/-- `tee_devirtualized` -/
def teeDevirtualized (json : JsonCodec) (reader : List (Except Text (List UInt8))) (roots : List (Text × Text)) :
    Prog Writer Text (List UInt8) := do
  let (pending, captured) ← readLoop json roots reader [] []
  if pending = [] then pure captured
  else do
    let line := devirtualizeLine json roots pending
    writeAll line
    pure (captured ++ line)

/-! ## Any division into reads -/

/-- The whole stream rewritten at once. -/
def devirtualized (json : JsonCodec) (roots : List (Text × Text)) (stream : List UInt8) : List UInt8 :=
  (Buffered.splitInclusive 10 stream).flatMap (devirtualizeLine json roots)

variable (json : JsonCodec) (roots : List (Text × Text))

theorem outcome_writeAll (bytes written : List UInt8) :
    Prog.outcome (writeAll bytes) ⟨written, none⟩ = (.ok (), ⟨written ++ bytes, none⟩) := rfl

/-- The lines taken off the buffer are the first of the stream. -/
theorem outcome_drainLines (pending captured written : List UInt8) : ∃ lines rest, 10 ∉ rest ∧
    (∀ more, Buffered.splitInclusive 10 (pending ++ more) = lines ++ Buffered.splitInclusive 10 (rest ++ more)) ∧
    Prog.outcome (drainLines json roots pending captured) ⟨written, none⟩ =
      (.ok (rest, captured ++ lines.flatMap (devirtualizeLine json roots)),
        ⟨written ++ lines.flatMap (devirtualizeLine json roots), none⟩) := by
  fun_induction drainLines json roots pending captured generalizing written with
  | case1 pending captured hline => exact ⟨[], pending, Buffered.takeLine_eq_none hline, by simp, by simp⟩
  | case2 pending captured line rest hline line' ih =>
    obtain ⟨lines, left, hleft, hsplit, hout⟩ := ih (written ++ line')
    refine ⟨line :: lines, left, hleft, ?_, ?_⟩
    · intro more
      rw [Buffered.splitInclusive_takeLine hline, hsplit more, List.cons_append]
    · rw [Prog.outcome_bind, outcome_writeAll]
      simpa [line', List.append_assoc] using hout

/-- The buffer never keeps a whole line from one read to the next. -/
theorem outcome_readLoop : ∀ (chunks : List (List UInt8)) (pending captured written : List UInt8),
    (∀ chunk ∈ chunks, chunk ≠ []) → 10 ∉ pending → ∃ lines rest, 10 ∉ rest ∧
      Buffered.splitInclusive 10 (pending ++ chunks.flatten) = lines ++ Buffered.splitInclusive 10 rest ∧
      Prog.outcome (readLoop json roots (chunks.map .ok) pending captured) ⟨written, none⟩ =
        (.ok (rest, captured ++ lines.flatMap (devirtualizeLine json roots)),
          ⟨written ++ lines.flatMap (devirtualizeLine json roots), none⟩) := by
  intro chunks
  induction chunks with
  | nil =>
    intro pending captured written _ hpending
    exact ⟨[], pending, hpending, by simp, by simp [readLoop]⟩
  | cons chunk chunks ih =>
    intro pending captured written hchunks hpending
    obtain ⟨hchunk, hchunks⟩ := List.forall_mem_cons.1 hchunks
    obtain ⟨first, buffered, hbuffered, hfirst, hdrain⟩ :=
      outcome_drainLines json roots (pending ++ chunk) captured written
    obtain ⟨lines, rest, hrest, hlines, hloop⟩ :=
      ih buffered (captured ++ first.flatMap (devirtualizeLine json roots))
        (written ++ first.flatMap (devirtualizeLine json roots)) hchunks hbuffered
    refine ⟨first ++ lines, rest, hrest, ?_, ?_⟩
    · rw [List.flatten_cons, ← List.append_assoc, hfirst, hlines, List.append_assoc]
    · rw [List.map_cons, readLoop, if_neg hchunk, Prog.outcome_bind, hdrain]
      simpa [List.append_assoc] using hloop

/-- What is passed on and what is captured are both the whole stream rewritten
line by line, however the reads divide it. -/
theorem outcome_teeDevirtualized (chunks : List (List UInt8)) (written : List UInt8)
    (hchunks : ∀ chunk ∈ chunks, chunk ≠ []) :
    Prog.outcome (teeDevirtualized json (chunks.map .ok) roots) ⟨written, none⟩ =
      (.ok (devirtualized json roots chunks.flatten),
        ⟨written ++ devirtualized json roots chunks.flatten, none⟩) := by
  obtain ⟨lines, rest, hrest, hsplit, hloop⟩ := outcome_readLoop json roots chunks [] [] written hchunks (by simp)
  rw [List.nil_append] at hsplit
  rw [teeDevirtualized, Prog.outcome_bind, hloop, devirtualized, hsplit, List.flatMap_append]
  by_cases hnil : rest = []
  · simp [hnil, Buffered.splitInclusive]
  · simp only [if_neg hnil, Prog.outcome_bind, outcome_writeAll, Prog.outcome_pure,
      Buffered.splitInclusive_open hrest hnil, List.flatMap_cons, List.flatMap_nil, List.append_nil,
      List.nil_append, List.append_assoc]

/-- A read that ends inside a root, and one between the two bytes of a line's
end. -/
theorem outcome_tee_split : Prog.outcome
    (teeDevirtualized ⟨fun _ => none, fun _ => []⟩
      ([utf8 "at /bell".toList, utf8 "ows/target/x\r".toList, utf8 "\nend".toList].map .ok)
      [("/bellows/target".toList, "/w/target".toList)]) ⟨[], none⟩ =
    (.ok (utf8 "at /w/target/x\r\nend".toList), ⟨utf8 "at /w/target/x\r\nend".toList, none⟩) := by
  have hall := outcome_teeDevirtualized ⟨fun _ => none, fun _ => []⟩
    [("/bellows/target".toList, "/w/target".toList)]
    [utf8 "at /bell".toList, utf8 "ows/target/x\r".toList, utf8 "\nend".toList] [] (by decide +kernel)
  have hout : devirtualized ⟨fun _ => none, fun _ => []⟩ [("/bellows/target".toList, "/w/target".toList)]
      [utf8 "at /bell".toList, utf8 "ows/target/x\r".toList, utf8 "\nend".toList].flatten =
      utf8 "at /w/target/x\r\nend".toList := by
    decide +kernel
  rw [hout] at hall
  exact hall

end Bellows.Cli
