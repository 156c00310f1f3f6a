/-
The spelling of paths that candidates carry: a root's path replaced by its
token (`PathNormalizer`), and the check a normalized input path must pass.

Paths are text, as the source normalizes them (`to_string_lossy`); lengths
are those of their UTF-8 encoding. This is the Unix build: a root has one
spelling, its path without trailing slashes.
-/
import Mathlib.Algebra.GroupWithZero.Nat
import Mathlib.Data.List.Sort
import Bellows.Lib.Text

namespace Bellows.Core

open Text

/-- `str::len` -/
def utf8Len (text : Text) : Nat := (text.map Char.utf8Size).sum

/-- `trim_end_matches('/')` -/
def trimSlashes (path : Text) : Text := (path.reverse.dropWhile (· == '/')).reverse

/-- The roots, longest path first. -/
structure PathNormalizer where
  bases : List (Text × Text)
  deriving Repr, DecidableEq

namespace PathNormalizer

/-- One round of `new`'s loop: no empty path, no path twice. -/
def addBase (rendered : List (Text × Text)) (base : Text × Text) : List (Text × Text) :=
  let value := trimSlashes base.2
  if value ≠ [] ∧ ∀ b ∈ rendered, b.2 ≠ value then rendered ++ [(base.1, value)] else rendered

def new (bases : List (Text × Text)) : PathNormalizer where
  bases := (bases.foldl addBase []).insertionSort fun a b => utf8Len b.2 ≤ utf8Len a.2

/-- Every recognized spelling of the directory a token stands for. -/
def spellings (n : PathNormalizer) (token : Text) : List Text :=
  (n.bases.filter (·.1 == token)).map (·.2)

def normalize (n : PathNormalizer) (value : Text) : Text :=
  n.bases.foldl (fun text base => replace base.2 base.1 text) value

end PathNormalizer

/-! ## Tokens -/

def CHECKOUT : Text := "$CHECKOUT".toList
def WORKSPACE : Text := "$WORKSPACE".toList
def PROFILE : Text := "$PROFILE".toList
def TARGET : Text := "$TARGET".toList
def CARGO_HOME : Text := "$CARGO_HOME".toList
def RUSTUP_HOME : Text := "$RUSTUP_HOME".toList
def HOME : Text := "$HOME".toList

/-- `ROOTS` of `validate_normalized_input_path`. -/
def roots : List Text := [CHECKOUT, WORKSPACE, PROFILE, TARGET, CARGO_HOME, RUSTUP_HOME, HOME]

def isSeparator (c : Char) : Bool := c == '/' || c == '\\'

/-- The path is under `root`: equal to it, or going on with a separator. -/
def underRoot (value root : Text) : Bool :=
  value == root || ((stripPrefix? root value).any fun suffix => suffix.head?.any isSeparator)

def forbiddenSegment (segment : Text) : Bool :=
  segment == [] || segment == ['.'] || segment == ['.', '.']

def validateNormalizedInputPath (value : Text) : Except String Unit :=
  if 4096 < utf8Len value ∨ '\x00' ∈ value then throw "normalized input path is empty or too long"
  else match roots.find? (underRoot value) with
    | none => throw ("normalized input path has no recognized root: " ++ String.ofList value)
    | some root =>
      let suffix := ((stripPrefix? root value).getD []).dropWhile isSeparator
      if suffix = [] ∨ (suffix.splitOnP isSeparator).any forbiddenSegment then
        throw ("normalized input path contains a forbidden segment: " ++ String.ofList value)
      else return ()

end Bellows.Core
