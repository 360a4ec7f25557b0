import WordSwitch.Program.Units

/-!
# Outlines

A recognizer drawn as text: the fallback, and under a heading for each length
the nodes of its trie.  A node stands on a row of its own, under its parent
and one cell further right, with its chunk between quotes and its terminal if
it has one.
-/

namespace WordSwitch

/-- A row of an outline. -/
structure OutlineRow where
  /-- For each node on the way from the root, whether it is the last child of
  its parent. -/
  isLast : List Bool
  chunk : Bytes
  terminal : Option Enumerator
deriving DecidableEq, Repr

namespace OutlineRow

/-- One byte between quotes. -/
def quoteByte (byte : UInt8) : List Char :=
  if byte == 34 then ['\\', '"']
  else if byte == 92 then ['\\', '\\']
  else if 32 ≤ byte && byte ≤ 126 then [Char.ofNat byte.toNat]
  else '\\' :: 'x' :: Program.hexPair byte

/-- A chunk between quotes. -/
def quoteChunk (chunk : Bytes) : String :=
  String.ofList ('"' :: chunk.flatMap quoteByte ++ ['"'])

/-- What is written after a node where a word ends. -/
def terminalText : Option Enumerator → String
  | none => ""
  | some enumerator => s!" => {enumerator.label} ({enumerator.value})"

/-- The four-character cells that lead to a node. -/
def cells : List Bool → String
  | [] => ""
  | [true] => "└── "
  | [false] => "├── "
  | true :: rest => "    " ++ cells rest
  | false :: rest => "│   " ++ cells rest

/-- The text of a row. -/
def text (row : OutlineRow) : String :=
  cells row.isLast ++ quoteChunk row.chunk ++ terminalText row.terminal

end OutlineRow

namespace Branches

variable {ι : Type}

/-- The rows for some branches below the given nodes. -/
def outlineRows (above : List Bool) : Branches ι → List OutlineRow
  | nil => []
  | cons chunk _ terminal below rest =>
    let here := above ++ [rest.isNil]
    ⟨here, chunk, terminal⟩ :: below.outlineRows here ++
      rest.outlineRows above

end Branches

namespace Recognizer

/-- The lines under the heading for one length. -/
def outlineSection (length : Nat) (trie : Trie) : Lines :=
  ["", s!"length {length}:"] ++
    (match trie.terminal with
      | none => []
      | some enumerator =>
        ["(root)" ++ OutlineRow.terminalText (some enumerator)]) ++
    (trie.branches.outlineRows []).map OutlineRow.text

/-- The lines of the outline. -/
def outlineLines (recognizer : Recognizer) : Lines :=
  ("fallback" ++ OutlineRow.terminalText (some recognizer.fallback)) ::
    recognizer.tries.flatMap fun (length, trie) => outlineSection length trie

/-- The outline, which has no declarations. -/
def outline (recognizer : Recognizer) : Units :=
  ⟨"", Lines.text recognizer.outlineLines⟩

end Recognizer

end WordSwitch
