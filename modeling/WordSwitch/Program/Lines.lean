import WordSwitch.Program.Code
import WordSwitch.Program.Config

/-!
# Lines of generated code

The text of each part of the generated code, as lines: how enumerators and
character constants are written, what surrounds the two units, and the nested
switches.
-/

namespace WordSwitch

/-- Lines of text. -/
abbrev Lines := List String

namespace Lines

/-- A text in which every line is ended. -/
def text (lines : Lines) : String :=
  String.join (lines.map (· ++ "\n"))

/-- The spaces in front of a line at some level. -/
def indent (level : Nat) : String :=
  String.ofList (List.replicate (4 * level) ' ')

end Lines

namespace CodeConfig

/-- Whether declarations and definitions are separate files. -/
def isSplit (config : CodeConfig) : Bool :=
  config.headerName.isSome

/-- The type of the enumeration. -/
def returnType (config : CodeConfig) : String :=
  if config.enumClass then config.enumName else s!"enum {config.enumName}"

/-- An enumerator as an expression. -/
def enumerator (config : CodeConfig) (label : String) : String :=
  if config.enumClass then s!"{config.enumName}::{label}" else label

/-- The storage class in front of the entry function. -/
def entryStorage (config : CodeConfig) : String :=
  if config.isSplit then "" else "static "

/-- The entry function up to its parameters. -/
def entrySignature (config : CodeConfig) : String :=
  s!"{config.entryStorage}{config.returnType} {config.functionName}" ++
    "(const char *string, size_t length)"

/-- The name of the function for one length. -/
def lengthFunction (config : CodeConfig) (length : Nat) : String :=
  s!"{config.functionName}{length}"

/-- The name of the function that reads some bits at once. -/
def loadFunction (config : CodeConfig) (bits : Nat) : String :=
  s!"{config.functionName}_load{bits}"

/-- Put lines into the namespace. -/
def insideNamespace (config : CodeConfig) (lines : Lines) : Lines :=
  match config.namespaceName with
  | none => lines
  | some name =>
    [s!"namespace {name} \x7b"] ++ lines ++ [s!"\x7d // namespace {name}"]

/-- Give lines C linkage. -/
def insideLinkage (config : CodeConfig) (lines : Lines) : Lines :=
  if config.externC then
    ["#ifdef __cplusplus", "extern \"C\" \x7b", "#endif"] ++ lines ++
      ["#ifdef __cplusplus", "\x7d", "#endif"]
  else
    lines

/-- The end of the include guard, which stands at the end of the declarations
if they are a file of their own. -/
def guardEnd : Lines := ["#endif"]

end CodeConfig

namespace Program

/-- The line that includes a header, which is quoted unless it already is. -/
def includeLine (header : String) : String :=
  match header.toList.head? with
  | some '<' | some '"' => s!"#include {header}"
  | _ => s!"#include \"{header}\""

/-- A hexadecimal digit pair. -/
def hexPair (byte : UInt8) : List Char :=
  let digits := Nat.toDigits 16 byte.toNat
  if digits.length < 2 then '0' :: digits else digits

/-- A byte as a character constant. -/
def characterConstant (byte : UInt8) : String :=
  let written :=
    if byte == 39 then ['\\', '\'']
    else if byte == 92 then ['\\', '\\']
    else if 32 ≤ byte && byte ≤ 126 then [Char.ofNat byte.toNat]
    else '\\' :: 'x' :: hexPair byte
  String.ofList ('\'' :: written ++ ['\''])

/-- The parts of a wide constant, each byte shifted to its place. -/
def placedBytes (bits : Nat) : (shift : Nat) → Bytes → List String
  | _, [] => []
  | shift, byte :: rest =>
    s!"TRIE_HASH_ONECHAR({characterConstant byte}, {shift}, {bits})" ::
      placedBytes bits (shift + 8) rest

/-- A chunk as a constant expression. -/
def constantExpression : Bytes → String
  | [byte] => characterConstant byte
  | chunk => " | ".intercalate (placedBytes (8 * chunk.length) 0 chunk)

/-- The mask that sets the case bit of every byte read. -/
def maskExpression (width : Nat) : String :=
  let digits := String.ofList (Nat.toDigits 16 (Chunk.foldMask width))
  if width == 8 then s!"0x{digits}ULL" else s!"0x{digits}"

/-- What a switch reads as an expression. -/
def Subject.expression (subject : Subject) (config : CodeConfig) : String :=
  let read :=
    if subject.width == 1 then s!"string[{subject.offset}]"
    else
      s!"{config.loadFunction (8 * subject.width)}" ++
        s!"(string + {subject.offset})"
  if subject.isFolded then s!"{read} | {maskExpression subject.width}"
  else read

/-- The line that opens a switch. -/
def Subject.line
    (subject : Subject)
    (config : CodeConfig)
    (level : Nat) :
    String :=
  s!"{Lines.indent level}switch({subject.expression config}) \x7b"

/-- The line that labels what follows with a constant. -/
def constantLine (level : Nat) (chunk : Bytes) : String :=
  s!"{Lines.indent level}case {constantExpression chunk}:"

/-- The line that returns an enumerator. -/
def answerLine (config : CodeConfig) (level : Nat) (label : String) : String :=
  s!"{Lines.indent level}return {config.enumerator label};"

/-- The line that marks the input as unused. -/
def unusedLine (level : Nat) : String :=
  s!"{Lines.indent level}(void) string;"

/-- The lines of some code.  Statements stand one level further in than the
constants that label them. -/
def Code.lines (config : CodeConfig) : (level : Nat) → Code → Lines
  | _, .nil => []
  | level, .unused next => unusedLine (level + 1) :: next.lines config level
  | level, .constant chunk next =>
    constantLine level chunk :: next.lines config level
  | level, .answer label next =>
    answerLine config (level + 1) label :: next.lines config level
  | level, .leave next =>
    s!"{Lines.indent (level + 1)}break;" :: next.lines config level
  | level, .switch subject body next =>
    subject.line config (level + 1) :: body.lines config (level + 1) ++
      s!"{Lines.indent (level + 1)}\x7d" :: next.lines config level

end Program

end WordSwitch
