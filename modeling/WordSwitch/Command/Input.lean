import WordSwitch.Command.Failure
import WordSwitch.File.Tree
import WordSwitch.Gzip.Member
import WordSwitch.WordList.Reader

/-!
# The input of commands

A word list comes from a file, which may be compressed, or from standard
input, which is named by a dash.
-/

namespace WordSwitch
namespace Command

/-- Whether a path stands for standard input. -/
def isStandardInput (path : Path) : Bool :=
  path.text == "-"

/-- What a file with some content delivers: a compressed one delivers what
was compressed. -/
def sourceOfFile (path : Path) (content : Bytes) : Source :=
  if path.isCompressed then Gzip.source content else .ofBytes content

/-- Open a word list in a file tree.  A directory can be opened, but not
read. -/
def openWordFile (tree : FileTree) (path : Path) : Except FileFailure Source :=
  match tree.find path with
  | .error failure => .error failure
  | .ok (_, .directory) => .ok (.failing .isADirectory)
  | .ok (_, .file content) => .ok (sourceOfFile path content)

/-- Open the word list that a path stands for. -/
def openInput
    (tree : FileTree)
    (standardInput : Bytes)
    (path : Path) :
    Except FileFailure Source :=
  if isStandardInput path then .ok (.ofBytes standardInput)
  else openWordFile tree path

/-- Read an opened word list. -/
def readInput
    (path : Path)
    (input : Except FileFailure Source) :
    Except Failure Lexicon :=
  match input with
  | .error cause => .error (.opening path cause)
  | .ok source => (Lexicon.ofSource source).mapError (.reading path)

end Command
end WordSwitch
