/-
Dep-info, as rustc writes it and as `parse_dep_info` reads it back.

A set is a `Finset` where the source collects into a `BTreeSet` and returns
its elements in order. rustc's own text (`depInfoText`) is not the
repository's: it is written here from its documented form, a rule for each
output, an empty rule for each file, and the `# env-dep:` comments.
-/
import Mathlib.Data.Finset.Basic
import Mathlib.Data.Finset.Union
import Bellows.Lib.Text

namespace Bellows.Core

open Text

/-- `char::is_whitespace`: Unicode's `White_Space`. -/
def isWhitespace (c : Char) : Bool :=
  c.toNat ∈ [0x09, 0x0A, 0x0B, 0x0C, 0x0D, 0x20, 0x85, 0xA0, 0x1680, 0x2000, 0x2001, 0x2002, 0x2003,
    0x2004, 0x2005, 0x2006, 0x2007, 0x2008, 0x2009, 0x200A, 0x2028, 0x2029, 0x202F, 0x205F, 0x3000]

/-- The loop of `split_makefile_words`, with the word read so far. -/
def splitWordsFrom (current : Text) : Text → List Text
  | [] => if current = [] then [] else [current]
  | '\\' :: ' ' :: rest => splitWordsFrom (current ++ [' ']) rest
  | c :: rest =>
    if isWhitespace c then
      if current = [] then splitWordsFrom [] rest else current :: splitWordsFrom [] rest
    else splitWordsFrom (current ++ [c]) rest

/-- Only spaces are escaped; other backslashes are literal. -/
def splitMakefileWords (value : Text) : List Text := splitWordsFrom [] value

def envDepPrefix : Text := "# env-dep:".toList

/-- An `# env-dep:` entry: its name, and its value as it stands in the comment. -/
def envEntry (rest : Text) : Text × Option Text :=
  match splitOnce ['='] rest with
  | none => (rest, none)
  | some (name, value) => (name, some value)

/-- The text with its continuation lines joined, in lines. -/
def logicalLines (text : Text) : List Text :=
  lines (replace ['\\', '\n'] [] (replace ['\\', '\r', '\n'] [] text))

/-- One round of `parse_dep_info`'s loop. -/
def readLine (acc : Finset Text × Finset (Text × Option Text)) (line : Text) :
    Finset Text × Finset (Text × Option Text) :=
  match stripPrefix? envDepPrefix line with
  | some rest => (acc.1, insert (envEntry rest) acc.2)
  | none =>
    match splitOnce [':', ' '] line with
    | none => acc
    | some (_, dependencies) =>
      ((splitMakefileWords dependencies).foldl (fun files word =>
        if word = [] then files else insert word files) acc.1, acc.2)

def parseDepInfo (text : Text) : Finset Text × Finset (Text × Option Text) :=
  (logicalLines text).foldl readLine (∅, ∅)

/-- rustc's escaping in `# env-dep:` comments. -/
def escapeDepEnv (value : Text) : Text :=
  value.flatMap fun
    | '\n' => ['\\', 'n']
    | '\r' => ['\\', 'r']
    | '\\' => ['\\', '\\']
    | c => [c]

/-! ## The text rustc writes -/

/-- A file rustc read: any nonempty name on one line that does not end in a
backslash. -/
structure DepFile where
  name : Text
  nonempty : name ≠ []
  oneLine : '\n' ∉ name ∧ '\r' ∉ name
  noTrailingBackslash : name.getLast? ≠ some '\\'

/-- An environment variable rustc looked up: `env!` takes any name. -/
structure EnvDep where
  name : Text
  value : Option Text

/-- rustc's escaping of file names. -/
def escapeDepFilename (name : Text) : Text := name.flatMap fun c => if c = ' ' then ['\\', ' '] else [c]

/-- The files of a rule, in one line. -/
def joinedFiles (files : List DepFile) : Text :=
  [' '].intercalate (files.map fun f => escapeDepFilename f.name)

/-- A rule and the blank line after it. -/
def ruleText (files : List DepFile) (output : Text) : Text :=
  output ++ [':', ' '] ++ joinedFiles files ++ ['\n', '\n']

/-- The rule without dependencies that keeps `make` going when the file is gone. -/
def fileText (file : DepFile) : Text := escapeDepFilename file.name ++ [':', '\n']

/-- An entry, without the prefix and the line's end. The name is escaped like
the value. -/
def entryText (env : EnvDep) : Text :=
  escapeDepEnv env.name ++ match env.value with
    | none => []
    | some value => '=' :: escapeDepEnv value

def envText (env : EnvDep) : Text := envDepPrefix ++ entryText env ++ ['\n']

def depInfoText (outputs : List Text) (files : List DepFile) (envs : List EnvDep) : Text :=
  outputs.flatMap (ruleText files) ++ files.flatMap fileText ++
    if envs = [] then [] else '\n' :: envs.flatMap envText

end Bellows.Core
