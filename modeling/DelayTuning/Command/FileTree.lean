import DelayTuning.Command.Cluster

/-!
# Trees of files

The files that a command can reach, as a value: directories with named entries, and the way from the
working directory up to the root. A path is walked name by name. With a tree in place of a file system,
all that the command for clustering writes for a list of paths is a function.

## Main definitions

- `FileNode`, `Directory`: files and directories
- `FileTree`: the working directory and the directories above it
- `Place.walk`: where a list of names leads
- `FileTree.find`: where a path leads
- `ClusterSettings.transcriptIn`: all that the command for clustering writes for a list of paths

## Design notes

A name is looked up only when all names before it have led to directories, so of several faults of a path
the first one along the way counts. Only the length of the whole path is checked before the walk.
-/

namespace DelayTuning

/-- A file, or a directory with its entries. -/
inductive FileNode where
  | file (bytes : ByteArray)
  | directory (entries : List (String × FileNode))

/-- The entries of a directory by their names. -/
abbrev Directory := List (String × FileNode)

/-- Why a path cannot be opened. -/
inductive PathFault where
  /-- There is no entry of a name. -/
  | noEntry
  /-- Something that is not a directory has no entries. -/
  | notDirectory
  | nameTooLong
  deriving DecidableEq, Repr

/-- The wording of a fault, with its number. -/
def PathFault.message : PathFault → String
  | .noEntry => "No such file or directory (os error 2)"
  | .notDirectory => "Not a directory (os error 20)"
  | .nameTooLong => "File name too long (os error 36)"

/-- The wording for a directory that is read as if it was a file. -/
def directoryReadMessage : String := "Is a directory (os error 21)"

def maxNameBytes : Nat := 255

def maxPathBytes : Nat := 4095

/-- A place in a tree: a file, or a directory with the directories above it, the nearest first. -/
inductive Place where
  | file (bytes : ByteArray)
  | directory (here : Directory) (above : List Directory)

namespace Place

def enter (here : Directory) (above : List Directory) (name : String) : Except PathFault Place :=
  if maxNameBytes < name.utf8ByteSize then .error .nameTooLong
  else
    match here.lookup name with
    | some (.file bytes) => .ok (.file bytes)
    | some (.directory entries) => .ok (.directory entries (here :: above))
    | none => .error .noEntry

/-- Where a name leads. An empty name and a single dot stay in a directory, two dots lead to the directory
    above it, and the root is above itself. -/
def step : Place → String → Except PathFault Place
  | .file _, _ => .error .notDirectory
  | .directory here above, name =>
    if name = "" ∨ name = "." then .ok (.directory here above)
    else if name = ".." then
      match above with
      | up :: rest => .ok (.directory up rest)
      | [] => .ok (.directory here [])
    else enter here above name

/-- Where a list of names leads, up to the first fault. -/
def walk : Place → List String → Except PathFault Place
  | place, [] => .ok place
  | place, name :: rest =>
    match place.step name with
    | .ok next => next.walk rest
    | .error fault => .error fault

/-- A walk along two lists of names is a walk along the first one, then one along the second. -/
theorem walk_append (place : Place) (names rest : List String) :
    place.walk (names ++ rest) =
      match place.walk names with
      | .ok next => next.walk rest
      | .error fault => .error fault := by
  induction names generalizing place with
  | nil => rfl
  | cons name names ih =>
    simp only [List.cons_append, walk]
    cases place.step name with
    | ok next => exact ih next
    | error fault => rfl

end Place

/-- The directories around a command. -/
structure FileTree where
  working : Directory
  /-- The directories between the working directory and the root, the nearest first. -/
  between : List Directory
  root : Directory

namespace FileTree

/-- The root of a tree in which nothing is known but the device that is always empty and the directory for
    temporary files. -/
def bareRoot : Directory :=
  [("dev", .directory [("null", .file ByteArray.empty)]), ("tmp", .directory [])]

/-- A tree whose working directory holds nothing but some files; of files with the same name the last one
    counts. -/
def ofFiles (files : List (String × ByteArray)) : FileTree where
  working := files.reverse.map fun (name, bytes) => (name, .file bytes)
  between := [[]]
  root := bareRoot

def start (tree : FileTree) (path : String) : Place :=
  if path.startsWith "/" then .directory tree.root []
  else .directory tree.working (tree.between ++ [tree.root])

/-- Where a path leads; the empty path leads nowhere. -/
def find (tree : FileTree) (path : String) : Except PathFault Place :=
  if path.isEmpty then .error .noEntry
  else if maxPathBytes < path.utf8ByteSize then .error .nameTooLong
  else (tree.start path).walk (path.splitOn "/")

/-- The content of a path as a log. A directory can be opened, but it cannot be read. -/
def content (tree : FileTree) (path : String) : LogContent :=
  match tree.find path with
  | .ok (.file bytes) => .bytes bytes
  | .ok (.directory _ _) => .unreadable directoryReadMessage
  | .error fault => .unopened fault.message

end FileTree

/-- All that the command for clustering writes for a list of paths. -/
def ClusterSettings.transcriptIn (s : ClusterSettings) (tree : FileTree) (paths : List String) :
    Transcript :=
  s.transcript (paths.map fun path => ⟨path, tree.content path⟩)

end DelayTuning
