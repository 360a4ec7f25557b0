/-!
# Structured text

Values of numbers, texts, lists and records in the usual notation, one member
on a line, each level indented by two spaces.  A record keeps the order of its
fields.
-/

namespace WordSwitch

/-- A value that is written as structured text. -/
inductive JsonTree where
  | boolean (value : Bool)
  | number (value : Int)
  | text (value : String)
  | list (members : List JsonTree)
  | record (fields : List (String × JsonTree))

namespace JsonTree

/-- A natural number. -/
def natural (value : Nat) : JsonTree := .number value

/-- A character code in four hexadecimal digits. -/
def fourDigits (code : Nat) : List Char :=
  let digits := Nat.toDigits 16 code
  List.replicate (4 - digits.length) '0' ++ digits

/-- One character between quotes. -/
def escapeChar (char : Char) : List Char :=
  if char = '"' then ['\\', '"']
  else if char = '\\' then ['\\', '\\']
  else if char = '\x08' then ['\\', 'b']
  else if char = '\t' then ['\\', 't']
  else if char = '\n' then ['\\', 'n']
  else if char = '\x0c' then ['\\', 'f']
  else if char = '\r' then ['\\', 'r']
  else if char.toNat < 32 then '\\' :: 'u' :: fourDigits char.toNat
  else [char]

/-- A text between quotes. -/
def quoted (text : String) : String :=
  String.ofList ('"' :: text.toList.flatMap escapeChar ++ ['"'])

/-- The spaces in front of a member at some level. -/
def indent (level : Nat) : String :=
  String.ofList (List.replicate (2 * level) ' ')

mutual

/-- The text of a value whose members stand one level further in. -/
def render (level : Nat) : JsonTree → String
  | .boolean true => "true"
  | .boolean false => "false"
  | .number value => toString value
  | .text value => quoted value
  | .list [] => "[]"
  | .list (first :: rest) =>
    "[\n" ++ indent (level + 1) ++ render (level + 1) first ++
      renderMembers (level + 1) rest ++ "\n" ++ indent level ++ "]"
  | .record [] => "\x7b\x7d"
  | .record ((name, first) :: rest) =>
    "\x7b\n" ++ indent (level + 1) ++ quoted name ++ ": " ++
      render (level + 1) first ++ renderFields (level + 1) rest ++
      "\n" ++ indent level ++ "\x7d"

/-- The members after the first. -/
def renderMembers (level : Nat) : List JsonTree → String
  | [] => ""
  | member :: rest =>
    ",\n" ++ indent level ++ render level member ++ renderMembers level rest

/-- The fields after the first. -/
def renderFields (level : Nat) : List (String × JsonTree) → String
  | [] => ""
  | (name, value) :: rest =>
    ",\n" ++ indent level ++ quoted name ++ ": " ++ render level value ++
      renderFields level rest

end

/-- The text of a value, on its own lines. -/
def document (tree : JsonTree) : String :=
  tree.render 0 ++ "\n"

/-- The widths of chunks on each level. -/
def ofWidths (levels : List (List Nat)) : JsonTree :=
  .list (levels.map fun level => .list (level.map natural))

end JsonTree

end WordSwitch
