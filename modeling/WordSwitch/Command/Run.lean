import WordSwitch.Command.Generate
import WordSwitch.Command.Stats

/-!
# Running commands

A command as a function of its arguments, its standard input and a file tree.
-/

namespace WordSwitch
namespace Command

/-- The commands. -/
inductive Tool where
  | generate
  | stats
deriving DecidableEq, Repr

/-- How a run ends: its exit code, the report on standard error if the run
fails with one, and what it leaves behind. -/
structure Ending where
  exitCode : Nat
  message : Option String
  world : World
deriving DecidableEq, Repr

/-- What a tool does, once its arguments are read: the word list it opens,
what it checks before that, and its effects. -/
structure Plan where
  input : Path
  check : Except Failure Unit
  effects : Except FileFailure Source → Except Failure (List Effect)

namespace Tool

/-- The options of a tool. -/
def forms : Tool → List OptionForm
  | generate => generateForms
  | stats => statsForms

/-- What a tool does with its arguments. -/
def plan (tool : Tool) (arguments : Arguments) : Plan :=
  match tool with
  | generate =>
    let options := arguments.generateOptions
    ⟨options.input, options.target.map fun _ => (), options.effects⟩
  | stats =>
    let options := arguments.statsOptions
    ⟨options.input, .ok (), options.effects⟩

/-- What a tool says when it fails. -/
def report (tool : Tool) (failure : Failure) : String :=
  match tool with
  | generate => s!"triehash: {failure.line}"
  | stats => failure.paragraphs

/-- What a tool says when it is asked for help. -/
def usage (tool : Tool) : String :=
  Lines.text ("Options:" :: tool.forms.map fun form => s!"  --{form.name}")

/-- Read the arguments of a tool. -/
def readArguments
    (tool : Tool)
    (arguments : List String) :
    Except Stop Arguments :=
  Arguments.read tool.forms isPath arguments

/-- The end of a run that fails before it has any effect: with a report, or
broken off. -/
def failing (tool : Tool) (failure : Failure) (tree : FileTree) : Ending :=
  if failure.isReported then ⟨1, some (tool.report failure), ⟨tree, ""⟩⟩
  else ⟨101, none, ⟨tree, ""⟩⟩

/-- Run a tool. -/
def run
    (tool : Tool)
    (arguments : List String)
    (standardInput : Bytes)
    (tree : FileTree) :
    Ending :=
  match tool.readArguments arguments with
  | .error .refused => ⟨2, none, ⟨tree, ""⟩⟩
  | .error .version => ⟨0, none, ⟨tree, versionText⟩⟩
  | .error .help => ⟨0, none, ⟨tree, tool.usage⟩⟩
  | .ok arguments =>
    let plan := tool.plan arguments
    match plan.effects (openInput tree standardInput plan.input) with
    | .error failure => tool.failing failure tree
    | .ok effects =>
      match World.performAll ⟨tree, ""⟩ effects with
      | (world, none) => ⟨0, none, world⟩
      | (world, some failure) => ⟨1, some (tool.report failure), world⟩

end Tool

end Command
end WordSwitch
