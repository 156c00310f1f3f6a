/-
Restoring the outputs of a declared action (`declared_outputs`), one file
operation at a time, any of which may fail: every outermost declared root is
built in a directory beside its destination, then the roots are swapped in one
after the other, and swapped back if one of them cannot be.

The workspace is its tree of names; no other process changes it. A symbolic
link on the way to a root is refused, so a path never leads through one. The
temporary file of `atomic_write` is left out: it is in the staging directory,
and is renamed at once or goes with it. So are the directories that a failed
`create_dir_all` leaves there.
-/
import Bellows.Core.DeclaredManifest
import Bellows.Lib.Prog
import Bellows.Lib.Trees

namespace Bellows.Cli.Restore

open Text Trees Prog Bellows.Core

inductive Node where
  | directory
  | file (bytes : List UInt8) (executable : Bool)
  | symlink (target : Text)
  /-- A socket, a device, a pipe. -/
  | special
  deriving DecidableEq, Repr

/-- A path's components, from the workspace. -/
abbrev Path := List Text

abbrev Workspace := Tree Text Node

/-- The file operations; `root` is the output root they are made for. -/
inductive RestoreOp where
  | createState
  | openLock
  | lock
  /-- `current.exists()`, which takes a failure for `false`. -/
  | lookParent (root path : Path)
  | statParent (root path : Path)
  | createParent (root path : Path)
  /-- The test for a symbolic link, which a failure passes. -/
  | statDestination (root : Path)
  | stage (root : Path)
  | createFresh (root : Path)
  | createParents (root path : Path)
  | writeTemp (root path : Path)
  | renameTemp (root path : Path)
  /-- After a failed rename. -/
  | readBack (root path : Path)
  | syncParent (root path : Path)
  | setExecutable (root path : Path)
  /-- The lookup of an old output, which takes a failure for its absence. -/
  | lookOld (root : Path)
  | saveOld (root : Path)
  | install (root : Path)
  | undoInstall (root : Path)
  | undoSave (root : Path)
  /-- The removal of a staging directory, whose failure nothing reports. -/
  | cleanUp (root : Path)
  deriving DecidableEq, Repr

inductive RestoreError where
  | refused (reason : String)
  | failed (op : RestoreOp)
  /-- The previous outputs are restored. -/
  | replace (cause : RestoreError)
  /-- The roots that could not be swapped back. -/
  | rollback (cause : RestoreError) (errors : List (Path × RestoreError))
  deriving Repr

/-- The workspace, and the `Replacement`s: the roots whose staging directories
are alive, those whose `had_old` is set, and those whose `installed` is. -/
structure Restoring where
  tree : Workspace
  staged : List Path
  saved : List Path
  installed : List Path

abbrev RestoreProg := Prog Restoring RestoreError

/-! ## Operations on the tree -/

def STATE : Path := [".bellows".toList]
def LOCK : Path := [".bellows".toList, "restore.lock".toList]

/-- `create_dir` -/
def mkdir (path : Path) (t : Workspace) : Option Workspace :=
  if nodeAt t path = none ∧ nodeAt t path.dropLast = some .directory then some (put t path .directory) else none

/-- `create_dir_all`, from `base` on. -/
def ensureDirs (base : Path) (t : Workspace) : List Text → Option Workspace
  | [] => some t
  | name :: names =>
    match nodeAt t (base ++ [name]) with
    | some .directory => ensureDirs (base ++ [name]) t names
    | none => ensureDirs (base ++ [name]) (put t (base ++ [name]) .directory) names
    | some _ => none

/-- What is at `dst` gives way to `node`: a directory only to an empty one. -/
def givesWay (t : Workspace) (node : Node) (dst : Path) : Bool :=
  match nodeAt t dst with
  | none => true
  | some .directory => node == .directory && emptyAt t dst
  | some _ => node != .directory

/-- `rename` -/
def rename (src dst : Path) (t : Workspace) : Option Workspace :=
  match nodeAt t src with
  | none => none
  | some node =>
    if nodeAt t dst.dropLast = some .directory ∧ givesWay t node dst then some (move t src dst) else none

def createState (t : Workspace) : Option Workspace :=
  match nodeAt t STATE with
  | none => mkdir STATE t
  | some .directory | some (.symlink _) => some t
  | some _ => none

/-- Opened, and created if it is not there. -/
def openLock (t : Workspace) : Option Workspace :=
  match nodeAt t LOCK with
  | none => if nodeAt t STATE = some .directory then some (put t LOCK (.file [] false)) else some t
  | some .directory => none
  | some _ => some t

def setExecutable (path : Path) (t : Workspace) : Option Workspace :=
  match nodeAt t path with
  | some (.file bytes _) => some (put t path (.file bytes true))
  | _ => none

/-! ## The roots -/

/-- No root within another, the shortest first. -/
def outermost (roots : List Path) : List Path :=
  (roots.insertionSort fun a b => a.length ≤ b.length).foldl
    (fun outer root => if outer.any (·.isPrefixOf root) then outer else outer ++ [root]) []

def outputRoots (r : DeclaredActionRecord) : List Path := outermost (r.outputPaths.map fun path => path.splitOnP (· == '/'))

/-! ## The program -/

section

variable (faults : RestoreOp → Bool) (staging : Path → Text) (files : List (Artifact × List UInt8))

/-- The temporary directory of a root, beside its destination. -/
def stagingDir (root : Path) : Path := root.dropLast ++ [staging root]

def freshPath (root : Path) : Path := stagingDir staging root ++ ["new".toList]
def oldPath (root : Path) : Path := stagingDir staging root ++ ["old".toList]
def failedPath (root : Path) : Path := stagingDir staging root ++ ["failed".toList]

/-- An operation fails if it is to, or where it cannot be done. -/
def perform (op : RestoreOp) (act : Workspace → Option Workspace) : RestoreProg Unit := do
  let s ← get
  match if faults op then none else act s.tree with
  | some tree => set { s with tree := tree }
  | none => throw (.failed op)

/-- A directory above a destination: it is one, or is created. -/
def safeParent (root path : Path) : RestoreProg Unit := do
  let s ← get
  match if faults (.lookParent root path) then none else nodeAt s.tree path with
  | none => perform faults (.createParent root path) (mkdir path)
  | some node =>
    perform faults (.statParent root path) some
    if node ≠ .directory then throw (.refused "unsafe restore parent")

def parents (root : Path) : List Path := root.inits.filter fun path => path ≠ [] ∧ path ≠ root

def isSymlink : Option Node → Bool
  | some (.symlink _) => true
  | _ => false

/-- `safe_destination` -/
def safeDestination (root : Path) : RestoreProg Unit := do
  (parents root).forM (safeParent faults root)
  let s ← get
  if faults (.statDestination root) = false ∧ isSymlink (nodeAt s.tree root) then
    throw (.refused "restore destination is a symlink")

/-- `tempdir_in`, under the name it found. -/
def createStaging (root : Path) (t : Workspace) : Option Workspace :=
  if nodeAt t (stagingDir staging root) = none ∧ nodeAt t root.dropLast = some .directory then
    some (graft t [([], .directory)] (stagingDir staging root))
  else none

/-- The rename of `atomic_write` and what follows it. -/
def replaceFile (root path target : Path) (bytes : List UInt8) : RestoreProg Unit := do
  let s ← get
  if faults (.renameTemp root path) = true ∨ nodeAt s.tree target = some .directory then
    match nodeAt s.tree target with
    | some (.file existing _) =>
      if existing ≠ bytes ∨ faults (.readBack root path) = true then throw (.failed (.renameTemp root path))
    | _ => throw (.failed (.renameTemp root path))
  else
    set { s with tree := put s.tree target (.file bytes false) }
    perform faults (.syncParent root path) some

/-- One round of the loop over the files: those of another root are passed
over. -/
def stageFile (root : Path) (file : Artifact × List UInt8) : RestoreProg Unit :=
  match validateRelativePath file.1.fileName with
  | .error reason => throw (.refused reason)
  | .ok path =>
    match stripPrefix? root path with
    | none => return ()
    | some relative => do
      let target := freshPath staging root ++ relative
      perform faults (.createParents root path) fun t =>
        ensureDirs (stagingDir staging root) t ("new".toList :: relative).dropLast
      perform faults (.writeTemp root path) some
      replaceFile faults root path target file.2
      if file.1.executable then perform faults (.setExecutable root path) (setExecutable target)

/-- The root is one of the files. -/
def isFile (root : Path) : Bool := files.any (·.1.path == root)

/-- One round of the first loop: a root and what is in it, built in its staging
directory. -/
def stageRoot (root : Path) : RestoreProg Unit := do
  safeDestination faults root
  perform faults (.stage root) (createStaging staging root)
  modify fun s => { s with staged := s.staged ++ [root] }
  if isFile files root = false then perform faults (.createFresh root) (mkdir (freshPath staging root))
  files.forM (stageFile faults staging root)

/-- One round of the loop that swaps the roots in. -/
def installRoot (root : Path) : RestoreProg Unit := do
  let s ← get
  if faults (.lookOld root) = false ∧ (nodeAt s.tree root).isSome then
    perform faults (.saveOld root) (rename root (oldPath staging root))
    modify fun s => { s with saved := s.saved ++ [root] }
  perform faults (.install root) (rename (freshPath staging root) root)
  modify fun s => { s with installed := s.installed ++ [root] }

/-- The drop of a `TempDir`. -/
def dropStaging (root : Path) : RestoreProg Unit :=
  modify fun s => if faults (.cleanUp root) then s else { s with tree := prune s.tree (stagingDir staging root) }

/-- One root swapped back. -/
def undoRoot (root : Path) : RestoreProg Unit := do
  let s ← get
  if root ∈ s.installed then perform faults (.undoInstall root) (rename root (failedPath staging root))
  if root ∈ s.saved then perform faults (.undoSave root) (rename (oldPath staging root) root)

/-- One round of the rollback: the staging directory stays if it failed. -/
def rollbackRoot (root : Path) : RestoreProg (Option (Path × RestoreError)) :=
  tryCatch
    (do
      undoRoot faults staging root
      dropStaging faults staging root
      return none)
    fun e => return some (root, e)

def rollback : List Path → RestoreProg (List (Path × RestoreError))
  | [] => return []
  | root :: roots => do
    let error ← rollbackRoot faults staging root
    let errors ← rollback roots
    return error.toList ++ errors

/-- After a failed swap: the roots are swapped back in the reverse order. -/
def recover (cause : RestoreError) : RestoreProg Unit := do
  let s ← get
  let errors ← rollback faults staging s.staged.reverse
  if errors = [] then throw (.replace cause) else throw (.rollback cause errors)

def dropAll : RestoreProg Unit := do
  let s ← get
  s.staged.forM (dropStaging faults staging)

/-- `declared_outputs` -/
def declaredOutputs (r : DeclaredActionRecord) : RestoreProg Unit := do
  match validateOutputRoots r.inputs r.outputPaths with
  | .error reason => throw (.refused reason)
  | .ok () =>
    perform faults .createState createState
    perform faults .openLock openLock
    perform faults .lock some
    tryCatch ((outputRoots r).forM (stageRoot faults staging files)) fun e => do
      dropAll faults staging
      throw e
    tryCatch ((outputRoots r).forM (installRoot faults staging)) (recover faults staging)
    dropAll faults staging

end

end Bellows.Cli.Restore
