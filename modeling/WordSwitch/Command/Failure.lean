import WordSwitch.File.Path
import WordSwitch.Program.Units
import WordSwitch.Recognizer.Basic
import WordSwitch.WordList.Reader

/-!
# Failures of commands

What ends a command before its time, as a chain of texts from what was
attempted to what went wrong.
-/

namespace WordSwitch
namespace Command

/-- Why a command fails. -/
inductive Failure where
  /-- The request for output is refused. -/
  | request (error : RequestError)
  /-- No recognizer can be built. -/
  | recognizer (error : RecognizerError)
  /-- The word list cannot be opened. -/
  | opening (path : Path) (cause : FileFailure)
  /-- The word list cannot be read. -/
  | reading (path : Path) (error : WordListError)
  /-- The code cannot be written down. -/
  | generating
  /-- A directory for an output file cannot be made. -/
  | makingDirectory (cause : FileFailure)
  /-- An output file cannot be created. -/
  | creating (path : Path) (cause : FileFailure)
deriving DecidableEq, Repr

namespace Failure

/-- The texts of a failing source: the error and its cause. -/
def sourceChain (cause : FileFailure) : List String :=
  [(WordListError.source cause).message, cause.message]

/-- What was attempted, and the causes for which it failed. -/
def chain : Failure → List String
  | request error => [error.message]
  | recognizer error => [error.message]
  | opening path cause => s!"failed to open {path.text}" :: sourceChain cause
  | reading path (.source cause) =>
    s!"failed to read {path.text}" :: sourceChain cause
  | reading path error => [s!"failed to read {path.text}", error.message]
  | generating => ["failed to format generated code", Units.failureMessage]
  | makingDirectory cause => [cause.message]
  | creating path cause =>
    [s!"failed to create {path.text}", cause.message]

/-- Whether the failure is reported and does not break off the run. -/
def isReported : Failure → Bool
  | reading _ error => error.isReported
  | _ => true

/-- The chain on one line. -/
def line (failure : Failure) : String :=
  ": ".intercalate failure.chain

/-- The causes, numbered from a start. -/
def numberedCauses : (number : Nat) → List String → String
  | _, [] => ""
  | number, cause :: rest =>
    s!"\n    {number}: {cause}" ++ numberedCauses (number + 1) rest

/-- The chain with each cause on a line of its own, numbered if there are
several. -/
def paragraphs (failure : Failure) : String :=
  match failure.chain with
  | [] => "Error: "
  | [attempt] => s!"Error: {attempt}"
  | [attempt, cause] => s!"Error: {attempt}\n\nCaused by:\n    {cause}"
  | attempt :: causes =>
    s!"Error: {attempt}\n\nCaused by:" ++ numberedCauses 0 causes

end Failure

end Command
end WordSwitch
