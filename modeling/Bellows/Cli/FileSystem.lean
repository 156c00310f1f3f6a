/-
The file system as the capture sees it: what each call it makes answers. The
answers are those of one moment; `none` stands for an error, whose kind no
caller looks at. Paths are text, in any spelling.
-/
import Mathlib.Data.Char
import Mathlib.Data.List.Destutter
import Mathlib.Data.List.Lex
import Mathlib.Data.List.Sort
import Bellows.Lib.Text

namespace Bellows.Cli

open Text

/-! ## The order of texts -/

instance : IsTrans Text (· ≤ ·) := inferInstance

instance : Std.Antisymm (fun a b : Text => a ≤ b) := inferInstance

instance : Std.Total (fun a b : Text => a ≤ b) := inferInstance

/-! ## Calls and their answers -/

inductive FileKind where
  | file
  | directory
  | symlink
  /-- A socket, a device, a pipe. -/
  | other
  deriving DecidableEq, Repr

/-- What `stat` tells of a file. Times are since the Unix epoch. -/
structure Metadata where
  kind : FileKind
  /-- In nanoseconds. -/
  modified : Int
  ctime : Int
  ctimeNsec : Int
  deriving DecidableEq, Repr

structure FileSystem where
  /-- `fs::metadata`: through symbolic links. -/
  metadata : Text → Option Metadata
  /-- `fs::symlink_metadata`: of the path itself. -/
  symlinkMetadata : Text → Option Metadata
  /-- Only links are followed. -/
  metadata_eq : ∀ path m, symlinkMetadata path = some m → m.kind ≠ .symlink → metadata path = some m
  canonicalize : Text → Option Text
  /-- `fs::read_dir`: the paths of the entries, in the order they come. -/
  readDir : Text → Option (List Text)
  /-- `Digests::file`: the digest of a file's content. -/
  digest : Text → Option Text

namespace FileSystem

def isFile (fs : FileSystem) (path : Text) : Bool := (fs.metadata path).any (·.kind == .file)

def isDir (fs : FileSystem) (path : Text) : Bool := (fs.metadata path).any (·.kind == .directory)

def pathExists (fs : FileSystem) (path : Text) : Bool := (fs.metadata path).isSome

/-- What the calls say of each other: a path reads as what it resolves to,
and a directory cannot be read. -/
structure Lawful (fs : FileSystem) : Prop where
  canonicalize_idem : ∀ path resolved, fs.canonicalize path = some resolved → fs.canonicalize resolved = some resolved
  digest_canonicalize : ∀ path resolved, fs.canonicalize path = some resolved → fs.digest path = fs.digest resolved
  canonicalize_of_digest : ∀ path d, fs.digest path = some d → ∃ resolved, fs.canonicalize path = some resolved
  symlinkMetadata_of_digest : ∀ path d, fs.digest path = some d →
    ∃ m, fs.symlinkMetadata path = some m ∧ m.kind ≠ .directory

end FileSystem

/-! ## Paths -/

def isAbsolute (path : Text) : Bool := path.head? == some '/'

/-- `Path::join`: an absolute second path replaces the first. -/
def join (base path : Text) : Text :=
  if isAbsolute path || base == [] then path
  else if base.getLast? == some '/' then base ++ path
  else base ++ '/' :: path

/-- A path, read backwards, without the separators and `.` at its end. -/
def trimRight : Text → Text
  | '/' :: rest => if rest = [] then ['/'] else trimRight rest
  | '.' :: '/' :: rest => trimRight ('/' :: rest)
  | path => path

/-- `Path::parent` -/
def parent (path : Text) : Option Text :=
  let path := trimRight path.reverse
  if path = [] ∨ path = ['/'] then none else some (trimRight (path.dropWhile (· != '/'))).reverse

/-- At most `n` ancestors. -/
def ancestorsFrom : Nat → Text → List Text
  | 0, _ => []
  | n + 1, path => path :: (parent path).elim [] (ancestorsFrom n)

/-- `Path::ancestors`: the path, its parent, and so on. A parent is shorter
than its child. -/
def ancestors (path : Text) : List Text := ancestorsFrom (path.length + 1) path

example : (ancestors "/a/./b/".toList).map String.ofList = ["/a/./b/", "/a", "/"] := by decide

/-- `Path::file_name`; empty where there is none. -/
def fileName (path : Text) : Text := ((trimRight path.reverse).takeWhile (· != '/')).reverse

/-- The components of a path, as `Path::components` finds them: no empty ones,
and a `.` only at the start. The root's is empty. -/
def components (path : Text) : List Text :=
  let parts := path.splitOnP (· == '/')
  (if isAbsolute path then [[]] else if parts.head? = some ['.'] then [['.']] else []) ++
    parts.filter fun part => part != [] && part != ['.']

/-- `Path::starts_with`: component by component. -/
def startsWith (path base : Text) : Bool := (components base).isPrefixOf (components path)

/-- What `Path`'s order compares: the root, then a leading `.`, then `..`, then
names. -/
def pathKey (path : Text) : List Text :=
  (components path).map fun part =>
    if part = ['.'] then ['\x00'] else if part = ['.', '.'] then ['\x00', '\x00'] else part

/-- A list of paths in `Path`'s order, each once, as a `BTreeSet` or
`sort` with `dedup` leave them. -/
def sortedPaths (paths : List Text) : List Text :=
  (paths.insertionSort fun a b => pathKey a ≤ pathKey b).destutter fun a b => components a ≠ components b

end Bellows.Cli
