import WordSwitch.Command.Run

/-!
# The program

Runs a tool on the files of the system.  The tool is chosen by the name under
which the program is started.
-/

namespace WordSwitch
namespace System

open Command

/-- The failure that an error of the system stands for. -/
def failureOf : IO.Error → FileFailure
  | .noFileOrDirectory .. => .notFound
  | .alreadyExists .. => .alreadyExists
  | .inappropriateType _ code _ =>
    if code == 21 then .isADirectory else .notADirectory
  | .invalidArgument _ code details =>
    if code == 36 then .nameTooLong else .other details
  | error => .other (toString error)

/-- Read a stream to its end, after bytes already read. -/
partial def readStream
    (stream : IO.FS.Stream)
    (read : ByteArray) :
    IO ByteArray := do
  let bytes ← stream.read 65536
  if bytes.isEmpty then return read
  readStream stream (read ++ bytes)

/-- Read an open file. -/
def readHandle (path : Path) (handle : IO.FS.Handle) : IO Source := do
  try
    return sourceOfFile path (← handle.readBinToEnd).toList
  catch error =>
    return .failing (failureOf error)

/-- Open a word list. -/
def readInput (path : Path) : IO (Except FileFailure Source) := do
  if isStandardInput path then
    let bytes ← readStream (← IO.getStdin) .empty
    return .ok (.ofBytes bytes.toList)
  try
    let handle ← IO.FS.Handle.mk path.text .read
    return .ok (← readHandle path handle)
  catch error =>
    return .error (failureOf error)

/-- Open a file for writing, with the directories above it. -/
def openOutput (path : Path) : IO (Except Failure IO.FS.Handle) := do
  let above := path.components.dropLast
  let parent := (if path.isAbsolute then "/" else "") ++ "/".intercalate above
  try
    unless above.isEmpty do IO.FS.createDirAll parent
  catch error =>
    return .error (.makingDirectory (failureOf error))
  try
    return .ok (← IO.FS.Handle.mk path.text .write)
  catch error =>
    return .error (.creating path (failureOf error))

/-- Open some files, then write to them and to those already open. -/
def saveAll
    (opened : List (IO.FS.Handle × String)) :
    List (Path × String) → IO (Option Failure)
  | [] => do
    for (handle, text) in opened do
      handle.putStr text
      handle.flush
    return none
  | (path, text) :: rest => do
    match ← openOutput path with
    | .error failure => return some failure
    | .ok handle => saveAll (opened ++ [(handle, text)]) rest

/-- Perform effects up to the first that fails. -/
def performAll : List Effect → IO (Option Failure)
  | [] => return none
  | .print text :: rest => do
    IO.print text
    performAll rest
  | .save files :: rest => do
    match ← saveAll [] files with
    | some failure => return some failure
    | none => performAll rest

/-- End with a failure: with a report, or broken off. -/
def fail (tool : Tool) (failure : Failure) : IO UInt32 := do
  IO.eprintln (tool.report failure)
  return if failure.isReported then 1 else 101

/-- Carry out a plan. -/
def carryOut (tool : Tool) (plan : Plan) : IO UInt32 := do
  match plan.check with
  | .error failure => fail tool failure
  | .ok () =>
    match plan.effects (← readInput plan.input) with
    | .error failure => fail tool failure
    | .ok effects =>
      match ← performAll effects with
      | some failure => fail tool failure
      | none => return 0

/-- Run a tool with its arguments. -/
def run (tool : Tool) (arguments : List String) : IO UInt32 := do
  match tool.readArguments arguments with
  | .error .refused =>
    IO.eprintln "invalid arguments"
    return 2
  | .error .version =>
    IO.print versionText
    return 0
  | .error .help =>
    IO.print tool.usage
    return 0
  | .ok arguments => carryOut tool (tool.plan arguments)

/-- The tool that goes by a name: the statistics by one that ends in
`stats`. -/
def toolNamed (name : Option String) : Tool :=
  if name.any (·.endsWith "stats") then .stats else .generate

end System
end WordSwitch

def main (arguments : List String) : IO UInt32 := do
  let name := (← IO.appPath).fileName
  WordSwitch.System.run (WordSwitch.System.toolNamed name) arguments
