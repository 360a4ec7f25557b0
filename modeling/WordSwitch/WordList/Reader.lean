import WordSwitch.File.Source
import WordSwitch.Lexicon.Notice
import WordSwitch.WordList.Line

/-!
# Reading word lists

A word list is read line by line into a lexicon.  The first line that is
refused ends the reading.  If the source fails before its end, the lines that
were complete by then are read first, so a refused line among them is what
is reported.
-/

namespace WordSwitch

/-- Why a word list is refused. -/
inductive WordListError where
  /-- A line, counted from one, is refused. -/
  | line (number : Nat) (problem : Line.Problem)
  /-- The source fails. -/
  | source (failure : FileFailure)
deriving DecidableEq, Repr

namespace WordListError

/-- The text of an error. -/
def message : WordListError → String
  | line number problem => s!"line {number}: {problem.message}"
  | source failure => s!"IO error: {failure.message}"

/-- Whether the error is reported and does not break off the reading without a
result. -/
def isReported : WordListError → Bool
  | line _ problem => problem.isReported
  | source _ => true

end WordListError

namespace Lexicon

/-- Follow one line. -/
def readLine (lexicon : Lexicon) (line : Bytes) :
    Except Line.Problem Lexicon :=
  match Line.parse line with
  | .error problem => .error problem
  | .ok none => .ok lexicon
  | .ok (some declaration) =>
    match lexicon.declare? declaration with
    | some lexicon => .ok lexicon
    | none => .error .valuesExhausted

/-- What one line overrides. -/
def lineNotices (lexicon : Lexicon) (line : Bytes) : List Notice :=
  match Line.parse line with
  | .ok (some declaration) => lexicon.notices declaration
  | _ => []

/-- Follow lines, the first of which has the given number. -/
def readLines
    (number : Nat)
    (lexicon : Lexicon) :
    List Bytes → Except WordListError Lexicon
  | [] => .ok lexicon
  | line :: rest =>
    match lexicon.readLine line with
    | .error problem => .error (.line number problem)
    | .ok lexicon => readLines (number + 1) lexicon rest

/-- What lines override, up to the first that is refused. -/
def linesNotices (lexicon : Lexicon) : List Bytes → List Notice
  | [] => []
  | line :: rest =>
    match lexicon.readLine line with
    | .error _ => []
    | .ok next => lexicon.lineNotices line ++ next.linesNotices rest

/-- Read a source. -/
def ofSource (source : Source) : Except WordListError Lexicon :=
  match readLines 1 empty source.lines with
  | .error error => .error error
  | .ok lexicon =>
    match source.failure with
    | none => .ok lexicon
    | some failure => .error (.source failure)

/-- Read a text. -/
def ofBytes (text : Bytes) : Except WordListError Lexicon :=
  ofSource (.ofBytes text)

/-- What reading a text overrides, also if a line is refused. -/
def noticesOfBytes (text : Bytes) : List Notice :=
  empty.linesNotices (Bytes.lines text)

end Lexicon

end WordSwitch
