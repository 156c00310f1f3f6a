/-
The event log (`append_with_limit`, `read_log`): a file that is appended to, and
up to two older ones that a rotation shifts, the oldest going away.

The files are the newest three segments of a log with a segment more at each
rotation (`segments_run`), whichever of them are missing at first. What is read
is what was appended from the third-last rotation on, in order.
-/
import Bellows.Access.Lines
import Bellows.Cli.Archive
import Bellows.Core.DeclaredKey
import Bellows.Lib.JsonLines
import Bellows.Lib.Rotation
import Bellows.Lib.Run

namespace Bellows.Cli.Diagnostics

open Bellows.Core Bellows.Access Transition Rotation

structure Event where
  timestampMs : Nat
  kind : Text
  crateName : Text
  staticKey : Option Text
  actionKey : Option Text
  detail : Text
  reason : Option Text
  sessionId : Option Text
  workspace : Option Text
  durationMs : Option Nat
  deriving DecidableEq, Repr

/-- A field that is left out where it is `None`. -/
def optionalField {α : Type} (name : String) (encode : α → List UInt8) : Option α → List (List UInt8 × List UInt8)
  | none => []
  | some value => [jsonField name (encode value)]

def Event.toJson (e : Event) : List UInt8 :=
  Json.object
    ([jsonField "timestamp_ms" (jsonNumber e.timestampMs), jsonField "kind" (jsonString e.kind),
        jsonField "crate_name" (jsonString e.crateName), jsonField "static_key" (jsonOption e.staticKey),
        jsonField "action_key" (jsonOption e.actionKey), jsonField "detail" (jsonString e.detail)] ++
      optionalField "reason" jsonString e.reason ++ optionalField "session_id" jsonString e.sessionId ++
      optionalField "workspace" jsonString e.workspace ++ optionalField "duration_ms" jsonNumber e.durationMs)

/-- The files `path`, `rotated(path, 1)` and `rotated(path, 2)`, where they exist. -/
structure LogFiles where
  current : Option (List UInt8) := none
  previous : Option (List UInt8) := none
  oldest : Option (List UInt8) := none
  deriving DecidableEq, Repr

def absent : LogFiles := {}

/-- What is written of an event. -/
def eventLine (event : Event) : List UInt8 := event.toJson ++ [10]

/-- The file is there and would grow beyond the limit. -/
def rotates (files : LogFiles) (event : Event) (limit : Nat) : Bool :=
  files.current.any fun content => decide (content.length + (eventLine event).length > limit)

def rotate (files : LogFiles) : LogFiles :=
  let files := { files with oldest := none }
  let files := match files.previous with
    | some previous => { files with oldest := some previous, previous := none }
    | none => files
  { files with previous := files.current, current := none }

def appendWithLimit (files : LogFiles) (event : Event) (limit : Nat) : LogFiles :=
  let files := if rotates files event limit then rotate files else files
  { files with current := some (files.current.getD [] ++ eventLine event) }

section Read

variable (parse : Text → Option Event)

/-- One line that is not blank: the events read, and how many lines are malformed. -/
def readLine (read : List Event × Nat) (line : Text) : List Event × Nat :=
  match parse line with
  | some event => (read.1 ++ [event], read.2)
  | none => (read.1, read.2 + 1)

/-- The lines of a file that are read. -/
def eventLines (contents : Text) : List Text := (Text.lines contents).filter fun line => decide (trim line ≠ [])

/-- One of the files, of which a missing one is passed over and one that is no text is an error. -/
def readFile (read : List Event × Nat) : Option (List UInt8) → Option (List Event × Nat)
  | none => some read
  | some bytes => do
    let contents ← fromUtf8 bytes
    return (eventLines contents).foldl (readLine parse) read

def readLog (files : LogFiles) : Option (List Event × Nat) :=
  if files.current.isNone && files.previous.isNone then some ([], 0)
  else [files.oldest, files.previous, files.current].foldlM (readFile parse) ([], 0)

end Read

/-! ## What the files hold -/

/-- What is parsed of an event's line is the event. -/
def ReadBack (parse : Text → Option Event) (event : Event) : Prop :=
  ∀ line, utf8 line = event.toJson → parse line = some event

/-- A file is text of whole lines. -/
def Whole (file : Option (List UInt8)) : Prop := ∀ bytes ∈ file, ∃ text, bytes = utf8 text ∧ AtLineStart text

structure LogFiles.Whole (files : LogFiles) : Prop where
  current : Diagnostics.Whole files.current
  previous : Diagnostics.Whole files.previous
  oldest : Diagnostics.Whole files.oldest

def eventsOf (parse : Text → Option Event) (text : Text) : List Event := (eventLines text).filterMap parse

/-- The events in a file. -/
def fileEvents (parse : Text → Option Event) (file : Option (List UInt8)) : List Event :=
  (file.bind fromUtf8).elim [] (eventsOf parse)

/-- The files as segments of a log. -/
def LogFiles.segments (parse : Text → Option Event) (files : LogFiles) : List (List Event) :=
  [fileEvents parse files.current, fileEvents parse files.previous, fileEvents parse files.oldest]

theorem whole_none : Whole none := fun bytes h => absurd h (by simp)

theorem absent_whole : absent.Whole := ⟨whole_none, whole_none, whole_none⟩

theorem oneLine_number (n : Nat) : Json.OneLine (jsonNumber n) :=
  ⟨Nat.toDigits 10 n, rfl, not_mem_toDigits (by decide), not_mem_toDigits (by decide)⟩

theorem oneLine_option (value : Option Text) : Json.OneLine (jsonOption value) := by
  cases value with
  | none => exact Json.oneLine_null
  | some text => exact Json.oneLine_string text

theorem oneLine_field (name : String) {value : List UInt8} (h : Json.OneLine value) :
    Json.OneLine (Json.member (jsonField name value).1 (jsonField name value).2) := Json.oneLine_member name.toList h

theorem oneLine_optionalField {α : Type} {name : String} {encode : α → List UInt8} {value : Option α}
    (h : ∀ a, Json.OneLine (encode a)) : ∀ m ∈ optionalField name encode value, Json.OneLine (Json.member m.1 m.2) := by
  cases value with
  | none => simp [optionalField]
  | some a =>
    intro m hm
    rw [List.mem_singleton.1 hm]
    exact oneLine_field name (h a)

/-- What is written of an event is one line, and not a blank one. -/
theorem exists_line (event : Event) : ∃ rest, event.toJson = utf8 ('{' :: rest) ∧ '\n' ∉ rest ∧ '\r' ∉ rest := by
  refine Json.exists_text_object fun m hm => ?_
  simp only [List.mem_append, List.mem_cons, List.not_mem_nil, or_false] at hm
  rcases hm with (((hm | hm) | hm) | hm) | hm
  · rcases hm with rfl | rfl | rfl | rfl | rfl | rfl
    · exact oneLine_field _ (oneLine_number _)
    · exact oneLine_field _ (Json.oneLine_string _)
    · exact oneLine_field _ (Json.oneLine_string _)
    · exact oneLine_field _ (oneLine_option _)
    · exact oneLine_field _ (oneLine_option _)
    · exact oneLine_field _ (Json.oneLine_string _)
  · exact oneLine_optionalField Json.oneLine_string m hm
  · exact oneLine_optionalField Json.oneLine_string m hm
  · exact oneLine_optionalField Json.oneLine_string m hm
  · exact oneLine_optionalField oneLine_number m hm

theorem trim_ne_nil {c : Char} (rest : Text) (hc : isWhitespace c = false) : trim (c :: rest) ≠ [] := by
  have hstart : trimStart (c :: rest) = c :: rest := trimStart_of_head fun d hd => Option.some.inj hd ▸ hc
  rw [trim, hstart, trimEnd]
  intro h
  have hall := List.dropWhile_eq_nil_iff.1 (List.reverse_eq_nil_iff.1 h) c (by simp)
  rw [hc] at hall
  cases hall

theorem eventsOf_append {a : Text} (h : AtLineStart a) (b : Text) (parse : Text → Option Event) :
    eventsOf parse (a ++ b) = eventsOf parse a ++ eventsOf parse b := by
  simp only [eventsOf, eventLines, lines_append_of_atLineStart h, List.filter_append, List.filterMap_append]

theorem exists_eventLine {parse : Text → Option Event} {event : Event} (h : ReadBack parse event) :
    ∃ line, eventLine event = utf8 (line ++ ['\n']) ∧ eventsOf parse (line ++ ['\n']) = [event] := by
  obtain ⟨rest, hjson, hn, hr⟩ := exists_line event
  refine ⟨'{' :: rest, by rw [eventLine, hjson, utf8_append]; rfl, ?_⟩
  have hlines : Text.lines (('{' :: rest) ++ ['\n']) = ['{' :: rest] :=
    Text.lines_cons (by simp [hn]) (by simp [hr]) []
  have hkept : eventLines (('{' :: rest) ++ ['\n']) = ['{' :: rest] := by
    rw [eventLines, hlines]
    simp [trim_ne_nil rest (by decide : isWhitespace '{' = false)]
  rw [eventsOf, hkept, List.filterMap_cons_some (h _ hjson.symm)]
  rfl

@[simp] theorem fileEvents_none (parse : Text → Option Event) : fileEvents parse none = [] := rfl

@[simp] theorem fileEvents_utf8 (parse : Text → Option Event) (text : Text) :
    fileEvents parse (some (utf8 text)) = eventsOf parse text := by
  simp [fileEvents, Archive.fromUtf8_utf8]

/-! ## One append -/

/-- Appended to, a file of whole lines is one and holds the event besides. -/
theorem append_file {parse : Text → Option Event} {event : Event} {file : Option (List UInt8)} (hw : Whole file)
    (h : ReadBack parse event) :
    Whole (some (file.getD [] ++ eventLine event)) ∧
      fileEvents parse (some (file.getD [] ++ eventLine event)) = fileEvents parse file ++ [event] := by
  obtain ⟨line, hline, hevents⟩ := exists_eventLine h
  obtain ⟨text, htext, hstart, hfile⟩ :
      ∃ text, file.getD [] = utf8 text ∧ AtLineStart text ∧ fileEvents parse file = eventsOf parse text := by
    cases file with
    | none => exact ⟨[], rfl, .inl rfl, rfl⟩
    | some bytes =>
      obtain ⟨text, rfl, hstart⟩ := hw bytes rfl
      exact ⟨text, rfl, hstart, fileEvents_utf8 parse text⟩
  have hbytes : file.getD [] ++ eventLine event = utf8 (text ++ (line ++ ['\n'])) := by
    rw [htext, hline, ← utf8_append]
  rw [hbytes]
  constructor
  · intro bytes hbytes
    obtain rfl := Option.some.inj hbytes
    exact ⟨_, rfl, .inr (by simp)⟩
  · rw [fileEvents_utf8, eventsOf_append hstart, hevents, hfile]

theorem rotate_eq (files : LogFiles) : rotate files = ⟨none, files.current, files.previous⟩ := by
  obtain ⟨current, previous, oldest⟩ := files
  cases previous <;> rfl

/-- An append to the files is one to their segments, and only the newest three are left. -/
theorem segments_append {parse : Text → Option Event} {files : LogFiles} {event : Event} (limit : Nat)
    (hw : files.Whole) (h : ReadBack parse event) :
    (appendWithLimit files event limit).Whole ∧
      (appendWithLimit files event limit).segments parse =
        (append (files.segments parse) ⟨event, rotates files event limit⟩).take 3 := by
  cases hr : rotates files event limit with
  | false =>
    obtain ⟨hwhole, hevents⟩ := append_file hw.current h
    simp only [appendWithLimit, hr, Bool.false_eq_true, if_false]
    refine ⟨⟨hwhole, hw.previous, hw.oldest⟩, ?_⟩
    simp [LogFiles.segments, append, hevents]
  | true =>
    obtain ⟨hwhole, hevents⟩ := append_file whole_none h
    rw [fileEvents_none] at hevents
    simp only [appendWithLimit, hr, if_true, rotate_eq]
    refine ⟨⟨hwhole, hw.current, hw.previous⟩, ?_⟩
    simp only [LogFiles.segments, append, if_true, hevents]
    rfl

/-! ## Reading the log -/

theorem foldl_readLine (parse : Text → Option Event) (lines : List Text) (read : List Event × Nat) :
    lines.foldl (readLine parse) read =
      (read.1 ++ lines.filterMap parse, read.2 + lines.countP fun line => (parse line).isNone) := by
  induction lines generalizing read with
  | nil => simp
  | cons line lines ih =>
    rw [List.foldl_cons, ih]
    cases hparse : parse line with
    | none => simp [readLine, hparse]; omega
    | some event => simp [readLine, hparse]

theorem readFile_whole {parse : Text → Option Event} {file : Option (List UInt8)} (hw : Whole file)
    (read : List Event × Nat) : ∃ malformed, readFile parse read file = some (read.1 ++ fileEvents parse file, malformed) := by
  cases file with
  | none => exact ⟨read.2, by simp [readFile]⟩
  | some bytes =>
    obtain ⟨text, rfl, -⟩ := hw bytes rfl
    simp only [readFile, Archive.fromUtf8_utf8, Option.bind_eq_bind, Option.bind_some, foldl_readLine, fileEvents_utf8]
    exact ⟨_, rfl⟩

theorem foldlM_readFile {parse : Text → Option Event} {files : List (Option (List UInt8))}
    (hw : ∀ file ∈ files, Whole file) (read : List Event × Nat) :
    ∃ malformed, files.foldlM (readFile parse) read = some (read.1 ++ files.flatMap (fileEvents parse), malformed) := by
  induction files generalizing read with
  | nil => exact ⟨read.2, by simp⟩
  | cons file files ih =>
    obtain ⟨m, hfile⟩ := readFile_whole (hw file List.mem_cons_self) read
    obtain ⟨m', hfiles⟩ := ih (fun other hother => hw other (List.mem_cons_of_mem _ hother)) (read.1 ++ fileEvents parse file, m)
    refine ⟨m', ?_⟩
    rw [List.foldlM_cons, hfile, Option.bind_eq_bind, Option.bind_some, hfiles]
    simp

/-- What is read is what the segments hold, the oldest file first. -/
theorem readLog_whole {parse : Text → Option Event} {files : LogFiles} (hw : files.Whole)
    (hc : files.current.isSome = true ∨ files = absent) :
    ∃ malformed, readLog parse files = some (held 3 (files.segments parse), malformed) := by
  rcases hc with hc | rfl
  · have hguard : (files.current.isNone && files.previous.isNone) = false := by
      simp [Option.isSome_iff_ne_none.1 hc]
    have hall : ∀ file ∈ [files.oldest, files.previous, files.current], Whole file := by
      simp [hw.oldest, hw.previous, hw.current]
    obtain ⟨malformed, hread⟩ := foldlM_readFile hall ([], 0)
    refine ⟨malformed, ?_⟩
    rw [readLog, hguard, if_neg Bool.false_ne_true, hread]
    simp [held, LogFiles.segments]
  · exact ⟨0, rfl⟩

/-! ## Runs -/

/-- Appending an event under a limit. -/
def Appends (files : LogFiles) (event : Event × Nat) (files' : LogFiles) : Prop :=
  files' = appendWithLimit files event.1 event.2

/-- The event appended, and whether the files were rotated for it. -/
def entry (m : Move LogFiles (Event × Nat)) : Entry Event := ⟨m.label.1, rotates m.pre m.label.1 m.label.2⟩

theorem segments_run {parse : Text → Option Event} {initial files : LogFiles} {ms : List (Move LogFiles (Event × Nat))}
    (hinitial : initial.Whole) (hparse : ∀ m ∈ ms, ReadBack parse m.label.1) (h : Run Appends initial ms files) :
    files.Whole ∧ files.segments parse = ((ms.map entry).foldl append (initial.segments parse)).take 3 ∧
      (files.current.isSome = true ∨ ms = [] ∧ files = initial) := by
  induction h with
  | nil => exact ⟨hinitial, rfl, .inr ⟨rfl, rfl⟩⟩
  | @snoc ms before label after _ hstep ih =>
    obtain rfl := hstep
    obtain ⟨hw, hsegments, -⟩ := ih fun m hm => hparse m (List.mem_append_left _ hm)
    obtain ⟨hwhole, hnext⟩ := segments_append label.2 hw (hparse ⟨before, label, appendWithLimit before label.1 label.2⟩ (by simp))
    refine ⟨hwhole, ?_, .inl rfl⟩
    rw [hnext, hsegments, append_take, List.map_append, List.foldl_append]
    rfl

/-- What is read of the log are the events appended from the third-last rotation on, in order. While there were
fewer, it is all of them, after what is left of the files there were at first. -/
theorem readLog_run {parse : Text → Option Event} {initial files : LogFiles} {ms : List (Move LogFiles (Event × Nat))}
    (hinitial : initial.Whole) (hstart : ms ≠ [] ∨ initial = absent) (hparse : ∀ m ∈ ms, ReadBack parse m.label.1)
    (h : Run Appends initial ms files) :
    ∃ events malformed, readLog parse files = some (events, malformed) ∧
      ((∃ recent, Since 3 (ms.map entry) recent ∧ events = recent.map Entry.item) ∨
        rotations (ms.map entry) < 3 ∧
          events = held (3 - rotations (ms.map entry)) (initial.segments parse) ++ ms.map fun m => m.label.1) := by
  obtain ⟨hw, hsegments, hcurrent⟩ := segments_run hinitial hparse h
  have hc : files.current.isSome = true ∨ files = absent :=
    hcurrent.imp_right fun ⟨hms, hfiles⟩ => hfiles.trans (hstart.resolve_left fun hne => hne hms)
  obtain ⟨malformed, hread⟩ := readLog_whole hw hc
  refine ⟨_, malformed, hread, ?_⟩
  have hheld : held 3 (files.segments parse) = held 3 ((ms.map entry).foldl append (initial.segments parse)) := by
    rw [hsegments, held, List.take_take]
    rfl
  rw [hheld]
  rcases held_foldl (List.cons_ne_nil _ _) (ms.map entry) 2 with hrecent | ⟨hfew, hall⟩
  · exact .inl hrecent
  · refine .inr ⟨by omega, hall.trans ?_⟩
    rw [List.map_map]
    rfl

def exampleEvent : Event where
  timestampMs := 1760000000000
  kind := "miss".toList
  crateName := "demo".toList
  staticKey := none
  actionKey := none
  detail := "line\none".toList
  reason := some "first-build".toList
  sessionId := none
  workspace := none
  durationMs := some 12

def parseExample (line : Text) : Option Event := if utf8 line = exampleEvent.toJson then some exampleEvent else none

/-- The files after `n` appends of an event that is larger than the limit. -/
def exampleFiles : Nat → LogFiles
  | 0 => absent
  | n + 1 => appendWithLimit (exampleFiles n) exampleEvent 1

def exampleMoves (n : Nat) : List (Move LogFiles (Event × Nat)) :=
  (List.range n).map fun i => ⟨exampleFiles i, (exampleEvent, 1), exampleFiles (i + 1)⟩

theorem run_example (n : Nat) : Run Appends absent (exampleMoves n) (exampleFiles n) := by
  induction n with
  | zero => exact .nil
  | succ n ih =>
    rw [exampleMoves, List.range_succ, List.map_append]
    exact ih.snoc rfl

/-- Five appends, each but the first after a rotation. -/
theorem readLog_five :
    ∃ events malformed, readLog parseExample (exampleFiles 5) = some (events, malformed) ∧
      ((∃ recent, Since 3 ((exampleMoves 5).map entry) recent ∧ events = recent.map Entry.item) ∨
        rotations ((exampleMoves 5).map entry) < 3 ∧
          events = held (3 - rotations ((exampleMoves 5).map entry)) (absent.segments parseExample) ++
            (exampleMoves 5).map fun m => m.label.1) := by
  have hparse : ∀ m ∈ exampleMoves 5, ReadBack parseExample m.label.1 := by
    intro m hm line hline
    obtain ⟨i, -, rfl⟩ := List.mem_map.1 hm
    exact if_pos hline
  exact readLog_run absent_whole (.inr rfl) hparse (run_example 5)

end Bellows.Cli.Diagnostics
