import WordSwitch.Command.Arguments
import WordSwitch.Command.Effect
import WordSwitch.Command.Input
import WordSwitch.Recognizer.Export
import WordSwitch.Recognizer.Lookup
import WordSwitch.Target

/-!
# Generating code

The command that reads a word list and writes code or an outline.  On demand
it also prints what the code returns for some words, and exports the lexicon
and its tries.  Nothing is printed or saved before everything is known.
-/

namespace WordSwitch
namespace Command

/-- What is asked of the generator. -/
structure GenerateOptions where
  input : Path
  /-- Where the code goes instead of standard output. -/
  codePath : Option Path
  /-- Where the declarations go if they are a file of their own. -/
  headerPath : Option Path
  /-- Where the lexicon is exported to. -/
  exportPath : Option Path
  /-- The words to look up. -/
  checks : List String
  language : String
  code : CodeConfig
  recognizer : RecognizerConfig

/-- The text of the version option. -/
def versionText : String := "triehash 0.1.0\n"

/-- The options of the generator. -/
def generateForms : List OptionForm :=
  [⟨"code", [], some 'C', .value isPath⟩,
    ⟨"header", [], some 'H', .value isPath⟩,
    .named "enum-name" (.value isText),
    .named "function-name" (.value isText),
    .named "counter-name" (.value isText),
    .named "enum-class" .flag,
    .named "namespace" (.value isText),
    .named "extern-c" .flag,
    .named "include" .repeated,
    .named "ignore-case" .flag,
    .named "multi-byte" .flag,
    .named "max-chunk-width" (.value isSize),
    .named "language" (.value isText),
    .named "check" .repeated,
    .named "export-json" (.value isPath),
    .named "threads" .flag,
    .named "max-workers" (.value isSize),
    ⟨"verbose", ["info"], some 'v', .flag⟩,
    .named "debug" .flag,
    .named "trace" .flag,
    ⟨"version", [], some 'V', .version⟩,
    ⟨"help", [], some 'h', .help⟩]

namespace Arguments

/-- The path given as an option. -/
def path? (arguments : Arguments) (name : String) : Option Path :=
  (arguments.value? name).map Path.mk

/-- The word list, standard input unless one is named. -/
def input (arguments : Arguments) : Path :=
  ⟨arguments.operand.getD "-"⟩

/-- How words are recognized. -/
def recognizer (arguments : Arguments) : RecognizerConfig :=
  ⟨arguments.has "ignore-case", arguments.has "multi-byte",
    ((arguments.value? "max-chunk-width").bind size?).getD 8⟩

/-- The names and forms of the code. -/
def code (arguments : Arguments) : CodeConfig where
  enumName := (arguments.value? "enum-name").getD "PerfectKey"
  functionName := (arguments.value? "function-name").getD "PerfectHash"
  counterName := arguments.value? "counter-name"
  namespaceName := arguments.value? "namespace"
  headerName := (arguments.path? "header").map Path.referenceName
  enumClass := arguments.has "enum-class"
  externC := arguments.has "extern-c"
  includes := arguments.values "include"

/-- What is asked of the generator. -/
def generateOptions (arguments : Arguments) : GenerateOptions where
  input := arguments.input
  codePath := arguments.path? "code"
  headerPath := arguments.path? "header"
  exportPath := arguments.path? "export-json"
  checks := arguments.values "check"
  language := (arguments.value? "language").getD "C"
  code := arguments.code
  recognizer := arguments.recognizer

end Arguments

namespace GenerateOptions

/-- Check what can be checked without a word list: the language, the chunk
width, and the names. -/
def target (options : GenerateOptions) : Except Failure Target := do
  let language ← (Language.ofName options.language).mapError .request
  options.recognizer.check.mapError .recognizer
  (Target.ofRequest language options.code).mapError .request

/-- The line that says what a word stands for. -/
def checkLine (recognizer : Recognizer) (word : String) : String :=
  let member := recognizer.lookup (Bytes.ofString word)
  s!"{word}\t{member.label}\t{member.value}"

/-- Print what the checked words stand for. -/
def checkEffects
    (options : GenerateOptions)
    (recognizer : Recognizer) :
    List Effect :=
  if options.checks.isEmpty then []
  else [.print (Lines.text (options.checks.map (checkLine recognizer)))]

/-- Export the lexicon. -/
def exportEffects
    (options : GenerateOptions)
    (lexicon : Lexicon)
    (recognizer : Recognizer) :
    List Effect :=
  options.exportPath.toList.map fun path =>
    .save [(path, (JsonTree.ofLexicon lexicon recognizer).document)]

/-- Where the declarations go if not to the place of the definitions. -/
def separateHeader? (options : GenerateOptions) : Option Path :=
  options.headerPath.filter fun header =>
    !options.codePath.any header.isSameAs

/-- Write the two units, to one place or to two. -/
def unitEffects (options : GenerateOptions) (units : Units) : List Effect :=
  match options.separateHeader?, options.codePath with
  | some header, some code =>
    [.save [(header, units.declarations), (code, units.definitions)]]
  | some header, none =>
    [.save [(header, units.declarations)], .print units.definitions]
  | none, some code => [.save [(code, units.joined)]]
  | none, none => [.print units.joined]

/-- Whether the units are written: checks alone replace them. -/
def writesUnits (options : GenerateOptions) : Bool :=
  options.checks.isEmpty || options.codePath.isSome ||
    options.headerPath.isSome

/-- What the generator does with an opened word list. -/
def effects
    (options : GenerateOptions)
    (input : Except FileFailure Source) :
    Except Failure (List Effect) := do
  let target ← options.target
  let lexicon ← readInput options.input input
  (options.code.checkAgainst lexicon).mapError .request
  let recognizer ←
    (lexicon.recognizer options.recognizer).mapError .recognizer
  match target.units? recognizer lexicon with
  | none => .error .generating
  | some units =>
    return options.checkEffects recognizer ++
      options.exportEffects lexicon recognizer ++
      (if options.writesUnits then options.unitEffects units else [])

end GenerateOptions

end Command
end WordSwitch
