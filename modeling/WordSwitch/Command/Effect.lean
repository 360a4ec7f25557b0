import WordSwitch.Command.Failure
import WordSwitch.File.Tree

/-!
# Effects of commands

What a command does once its results are known: it prints, and it saves
files.  Files that are saved together are all opened before the first is
written, so two paths to one file write over each other.
-/

namespace WordSwitch
namespace Command

/-- Something a command does. -/
inductive Effect where
  /-- Print a text. -/
  | print (text : String)
  /-- Open some files and write to them. -/
  | save (files : List (Path × String))
deriving DecidableEq, Repr

/-- What a command leaves behind. -/
structure World where
  tree : FileTree
  printed : String
deriving DecidableEq, Repr

namespace World

/-- Open a file for writing, with the directories above it. -/
def openFile
    (world : World)
    (path : Path) :
    World × Except Failure Location :=
  match world.tree.makeParents path with
  | .error cause => (world, .error (.makingDirectory cause))
  | .ok tree =>
    match tree.create path with
    | .error cause =>
      ({ world with tree := tree }, .error (.creating path cause))
    | .ok (location, tree) => ({ world with tree := tree }, .ok location)

/-- Write to open files. -/
def writeAll (world : World) (files : List (Location × String)) : World :=
  { world with
    tree := files.foldl
      (fun tree (location, text) => tree.write location (Bytes.ofString text))
      world.tree }

/-- Open some files, then write to them and to those already open. -/
def saveAll
    (world : World)
    (opened : List (Location × String)) :
    List (Path × String) → World × Option Failure
  | [] => (world.writeAll opened, none)
  | (path, text) :: rest =>
    match world.openFile path with
    | (world, .error failure) => (world, some failure)
    | (world, .ok location) =>
      world.saveAll (opened ++ [(location, text)]) rest

/-- Perform one effect. -/
def perform (world : World) : Effect → World × Option Failure
  | .print text => ({ world with printed := world.printed ++ text }, none)
  | .save files => world.saveAll [] files

/-- Perform effects up to the first that fails. -/
def performAll (world : World) : List Effect → World × Option Failure
  | [] => (world, none)
  | effect :: rest =>
    match world.perform effect with
    | (world, none) => world.performAll rest
    | (world, some failure) => (world, some failure)

end World

end Command
end WordSwitch
