import WordSwitch.Bytes
import WordSwitch.File.Failure
import WordSwitch.File.Path

/-!
# File trees

A tree of directories and files as a map from locations.  Commands run in a
working directory inside it.  Opening, reading and creating follow the rules
of the system: all but the last step of a path have to lead through
directories, a path that ends in a slash names a directory, and neither names
nor paths may be too long.
-/

namespace WordSwitch

/-- The names that lead from the outermost directory to a place. -/
abbrev Location := List String

/-- What is found at a location. -/
inductive FileItem where
  | directory
  | file (content : Bytes)
deriving DecidableEq, Repr

/-- What is found at each location, apart from the outermost directory. -/
structure FileTree where
  items : List (Location × FileItem)
deriving DecidableEq, Repr

namespace FileTree

/-- The directory in which commands run. -/
def workingDirectory : Location := ["."]

/-- The tree with an empty working directory. -/
def empty : FileTree := ⟨[(workingDirectory, .directory)]⟩

/-- What is found at a location, if anything. -/
def get? (tree : FileTree) (location : Location) : Option FileItem :=
  if location.isEmpty then some .directory
  else tree.items.lookup location

/-- Put something at a location in place of what is there. -/
def put (tree : FileTree) (location : Location) (item : FileItem) : FileTree :=
  ⟨(location, item) :: tree.items.filter (·.1 != location)⟩

/-- Refuse a location that is no directory. -/
def checkDirectory
    (tree : FileTree)
    (location : Location) :
    Except FileFailure Unit :=
  match tree.get? location with
  | none => .error .notFound
  | some (.file _) => .error .notADirectory
  | some .directory => .ok ()

/-- Take one step from a directory. -/
def step
    (tree : FileTree)
    (location : Location)
    (name : String) :
    Except FileFailure Location := do
  tree.checkDirectory location
  if name == "." then return location
  else if name == ".." then return location.dropLast
  else if Path.longestName < name.utf8ByteSize then .error .nameTooLong
  else return location ++ [name]

/-- Walk along some names. -/
def walk
    (tree : FileTree)
    (start : Location)
    (names : List String) :
    Except FileFailure Location :=
  names.foldlM tree.step start

/-- Where a path starts. -/
def start (path : Path) : Location :=
  if path.isAbsolute then [] else workingDirectory

/-- Walk along a path. -/
def follow (tree : FileTree) (path : Path) : Except FileFailure Location := do
  path.check
  tree.walk (start path) path.steps

/-- Walk along all but the last name of a path. -/
def followParent
    (tree : FileTree)
    (path : Path) :
    Except FileFailure Location := do
  path.check
  tree.walk (start path) path.steps.dropLast

/-- The last name of a path. -/
def lastName (path : Path) : String :=
  path.steps.getLast?.getD "."

/-- Find what a path names. -/
def find
    (tree : FileTree)
    (path : Path) :
    Except FileFailure (Location × FileItem) := do
  let location ← tree.follow path
  match tree.get? location with
  | none => .error .notFound
  | some (.file content) =>
    if path.endsWithSlash then .error .notADirectory
    else return (location, .file content)
  | some .directory => return (location, .directory)

/-- Make a directory next to others; it must not be there already. -/
def makeDirectory
    (tree : FileTree)
    (path : Path) :
    Except FileFailure FileTree := do
  let parent ← tree.followParent path
  let location ← tree.step parent (lastName path)
  match tree.get? location with
  | some _ => .error .alreadyExists
  | none => return tree.put location .directory

/-- Whether a path leads to a directory. -/
def hasDirectory (tree : FileTree) (path : Path) : Bool :=
  match tree.find path with
  | .ok (_, .directory) => true
  | _ => false

/-- Keep a result, or the tree as it is if the path leads to a directory
anyway. -/
def orDirectory
    (tree : FileTree)
    (path : Path)
    (made : Except FileFailure FileTree) :
    Except FileFailure FileTree :=
  match made with
  | .ok tree => .ok tree
  | .error failure =>
    if tree.hasDirectory path then .ok tree else .error failure

/-- Make a directory and those above it, as far as they are missing.  The
paths that lead to them are given nearest first. -/
def makeDirectories (tree : FileTree) : List Path → Except FileFailure FileTree
  | [] => .ok tree
  | path :: above =>
    match tree.makeDirectory path with
    | .error .notFound => do
      let tree ← tree.makeDirectories above
      tree.orDirectory path (tree.makeDirectory path)
    | made => tree.orDirectory path made

/-- Make the directories above a path. -/
def makeParents (tree : FileTree) (path : Path) : Except FileFailure FileTree :=
  tree.makeDirectories path.ancestors

/-- Open a file for writing, which empties it or makes it. -/
def create
    (tree : FileTree)
    (path : Path) :
    Except FileFailure (Location × FileTree) := do
  let above ← tree.followParent path
  let name := lastName path
  tree.checkDirectory above
  if path.endsWithSlash && name != "." && name != ".." then
    .error .isADirectory
  let location ← tree.step above name
  match tree.get? location with
  | some .directory => .error .isADirectory
  | _ => return (location, tree.put location (.file []))

/-- Write bytes at the start of an open file, over what is there. -/
def write (tree : FileTree) (location : Location) (bytes : Bytes) : FileTree :=
  match tree.get? location with
  | some (.file content) =>
    tree.put location (.file (bytes ++ content.drop bytes.length))
  | _ => tree

/-- Put a file at a path, or a directory if the path ends with a slash, with
the directories above it.  A path that leads nowhere leaves the tree as it
is. -/
def addFile (tree : FileTree) (path : Path) (content : Bytes) : FileTree :=
  let added := do
    if path.endsWithSlash then
      tree.makeDirectories (path :: path.ancestors)
    else
      let (location, tree) ← (← tree.makeParents path).create path
      return tree.write location content
  added.toOption.getD tree

/-- The files in the working directory, with the paths that lead to them. -/
def files (tree : FileTree) : List (String × Bytes) :=
  tree.items.filterMap fun (location, item) =>
    match location, item with
    | first :: names, .file content =>
      if [first] == workingDirectory then
        some ("/".intercalate names, content)
      else none
    | _, _ => none

end FileTree

end WordSwitch
