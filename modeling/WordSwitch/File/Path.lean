import WordSwitch.File.Failure

/-!
# Paths

A path is written as names between slashes.  It is looked at in two ways: as
the steps that are walked, and as the components that tell whether two paths
are spelled alike, which leave out empty names and the dots inside.
-/

namespace WordSwitch

/-- A path as it is written. -/
structure Path where
  text : String
deriving DecidableEq, Repr

namespace Path

/-- The names between slashes, some of which may be empty. -/
def splitNames : List Char → List (List Char)
  | [] => [[]]
  | '/' :: rest => [] :: splitNames rest
  | char :: rest =>
    match splitNames rest with
    | [] => [[char]]
    | name :: others => (char :: name) :: others

/-- Whether the path starts at the outermost directory. -/
def isAbsolute (path : Path) : Bool :=
  path.text.toList.head? == some '/'

/-- Whether the path ends with a slash. -/
def endsWithSlash (path : Path) : Bool :=
  path.text.toList.getLast? == some '/'

/-- The names to walk along, among them single and double dots. -/
def steps (path : Path) : List String :=
  ((splitNames path.text.toList).map String.ofList).filter (· != "")

/-- Whether a name is a component, given what is written before it.  A single
dot is one only at the start of a relative path. -/
def isComponent (before : List Char) (name : List Char) : Bool :=
  match name with
  | [] => false
  | ['.'] => before.isEmpty
  | _ => true

/-- The components among some names, each with the text that ends with it,
given what is written before the names. -/
def componentsFrom
    (before : List Char) :
    List (List Char) → List (List Char × List Char)
  | [] => []
  | name :: rest =>
    let here := before ++ name
    let following := componentsFrom (here ++ ['/']) rest
    if isComponent before name then (name, here) :: following else following

/-- The components with the texts that end with them. -/
def componentEnds (path : Path) : List (List Char × List Char) :=
  componentsFrom [] (splitNames path.text.toList)

/-- The names that make up the path. -/
def components (path : Path) : List String :=
  path.componentEnds.map (String.ofList ·.1)

/-- The directories that lead to the path, nearest first. -/
def ancestors (path : Path) : List Path :=
  (path.componentEnds.map (⟨String.ofList ·.2⟩)).dropLast.reverse

/-- What the path names when it is taken from a directory.  An absolute path
names the same from everywhere, and the empty path names the directory. -/
def within (path : Path) (directory : Path) : Path :=
  if path.isAbsolute then path
  else if directory.endsWithSlash then ⟨directory.text ++ path.text⟩
  else ⟨directory.text ++ "/" ++ path.text⟩

/-- Whether two paths are spelled alike. -/
def isSameAs (first second : Path) : Bool :=
  first.isAbsolute == second.isAbsolute &&
    first.components == second.components

/-- The largest number of bytes that a path may have. -/
def longestPath : Nat := 4095

/-- The largest number of bytes that a name may have. -/
def longestName : Nat := 255

/-- Refuse a path that can name nothing, whatever the files are. -/
def check (path : Path) : Except FileFailure Unit :=
  if path.text.toList.contains '\x00' then .error .zeroInName
  else if path.text.isEmpty then .error .notFound
  else if longestPath < path.text.utf8ByteSize then .error .nameTooLong
  else .ok ()

/-- The last component if it is a name of its own. -/
def fileName? (path : Path) : Option String :=
  path.components.getLast?.filter fun name => name != "." && name != ".."

/-- How other files refer to the path: by its name if it has one. -/
def referenceName (path : Path) : String :=
  path.fileName?.getD path.text

/-- What follows the last dot of some characters, unless the dot is missing
or is the first of them. -/
def extensionOf? (name : List Char) : Option (List Char) :=
  let reversed := name.reverse
  match reversed.dropWhile (· != '.') with
  | [] | [_] => none
  | _ => some (reversed.takeWhile (· != '.')).reverse

/-- What follows the last dot of the file name. -/
def extension? (path : Path) : Option String :=
  (path.fileName?.bind fun name => extensionOf? name.toList).map String.ofList

/-- Whether the name says that the file is compressed. -/
def isCompressed (path : Path) : Bool :=
  match path.extension? with
  | none => false
  | some extension => extension.toLower == "gz"

end Path

end WordSwitch
