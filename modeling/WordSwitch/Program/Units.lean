import WordSwitch.Program.Lines

/-!
# The two units of generated code

The declarations hold the enumeration and the prototype of the entry function.
The definitions hold the functions.  As one file, the definitions follow the
declarations inside one include guard; as two, the declarations close the
guard and the definitions include them.
-/

namespace WordSwitch

/-- The text of the two units. -/
structure Units where
  declarations : String
  definitions : String
deriving DecidableEq, Repr

namespace Program

/-- One member of the enumeration. -/
def enumeratorLine (label : String) (value : Int) : String :=
  s!"{Lines.indent 1}{label} = {value},"

/-- The counter as a member of the enumeration; `none` if it has no value. -/
def counterLines?
    (config : CodeConfig)
    (lexicon : Lexicon) :
    Option Lines :=
  match config.counterName with
  | none => some []
  | some name =>
    (nextValue? lexicon.largestValue).map fun value =>
      [enumeratorLine name value]

/-- The enumeration and the prototype of the entry function. -/
def prototypeLines
    (config : CodeConfig)
    (lexicon : Lexicon)
    (counter : Lines) :
    Lines :=
  let keyword := if config.enumClass then "enum class" else "enum"
  [s!"{keyword} {config.enumName} \x7b"] ++
    lexicon.enumeration.map (fun member =>
      enumeratorLine member.label member.value) ++
    counter ++ ["\x7d;"] ++
    config.insideLinkage [s!"{config.entrySignature};"]

/-- The lines of the declarations; `none` if the counter has no value. -/
def declarationLines?
    (config : CodeConfig)
    (lexicon : Lexicon) :
    Option Lines :=
  let guard := s!"TRIE_HASH_{config.functionName}"
  (counterLines? config lexicon).map fun counter =>
    [s!"#ifndef {guard}", s!"#define {guard}", "#include <stddef.h>",
      "#include <stdint.h>"] ++
      config.includes.map includeLine ++
      config.insideNamespace (prototypeLines config lexicon counter) ++
      (if config.isSplit then CodeConfig.guardEnd else [])

/-- The function that reads `width` bytes at once. -/
def loadLines (config : CodeConfig) (width : Nat) : Lines :=
  let bits := 8 * width
  [s!"static inline uint{bits}_t {config.loadFunction bits}(const char *p)",
    "\x7b",
    s!"{Lines.indent 1}uint{bits}_t v;",
    s!"{Lines.indent 1}memcpy(&v, p, sizeof v);",
    s!"{Lines.indent 1}return v;",
    "\x7d"]

/-- The order of bytes and the functions that read several at once, if
some switch does. -/
def wideReadLines (config : CodeConfig) (widths : List Nat) : Lines :=
  if widths.isEmpty then []
  else
    ["#include <string.h>", "#ifndef TRIE_HASH_ONECHAR",
      "#if defined(__BYTE_ORDER__) && " ++
        "__BYTE_ORDER__ == __ORDER_BIG_ENDIAN__",
      "#define TRIE_HASH_ONECHAR(c, s, l) " ++
        "(((uint64_t)(unsigned char)(c)) << ((l) - 8 - (s)))",
      "#else",
      "#define TRIE_HASH_ONECHAR(c, s, l) " ++
        "(((uint64_t)(unsigned char)(c)) << (s))",
      "#endif", "#endif"] ++
      widths.flatMap (loadLines config)

/-- The function for one length. -/
def lengthFunctionLines
    (config : CodeConfig)
    (length : Nat)
    (code : Code) :
    Lines :=
  [s!"static {config.returnType} {config.lengthFunction length}" ++
      "(const char *string)", "\x7b"] ++
    code.lines config 0 ++ ["\x7d"]

/-- The entry function, which chooses a function by the length. -/
def entryFunctionLines
    (config : CodeConfig)
    (definitions : Definitions) :
    Lines :=
  [config.entrySignature, "\x7b"] ++
    (if definitions.functions.isEmpty then
      [unusedLine 1] else []) ++
    [s!"{Lines.indent 1}switch (length) \x7b"] ++
    definitions.functions.flatMap (fun (length, _) =>
      [s!"{Lines.indent 1}case {length}:",
        s!"{Lines.indent 2}return {config.lengthFunction length}(string);"]) ++
    [s!"{Lines.indent 1}default:",
      answerLine config 2 definitions.fallback,
      s!"{Lines.indent 1}\x7d", "\x7d"]

/-- The lines of the definitions. -/
def definitionLines
    (config : CodeConfig)
    (widths : List Nat)
    (definitions : Definitions) :
    Lines :=
  (config.headerName.map includeLine).toList ++
    wideReadLines config widths ++
    config.insideNamespace
      (definitions.functions.flatMap (fun (length, code) =>
          lengthFunctionLines config length code) ++
        config.insideLinkage (entryFunctionLines config definitions)) ++
    (if config.isSplit then [] else CodeConfig.guardEnd)

/-- The generated code; `none` if the counter has no value. -/
def units?
    (config : CodeConfig)
    (recognizer : Recognizer)
    (lexicon : Lexicon) :
    Option Units :=
  (declarationLines? config lexicon).map fun declarations =>
    ⟨Lines.text declarations,
      Lines.text (definitionLines config recognizer.wideWidths
        recognizer.definitions)⟩

end Program

namespace Units

/-- What is said if the counter has no value although nobody checked it. -/
def failureMessage : String :=
  "an error occurred when formatting an argument"

/-- Both units as one text. -/
def joined (units : Units) : String :=
  units.declarations ++ units.definitions

end Units

end WordSwitch
