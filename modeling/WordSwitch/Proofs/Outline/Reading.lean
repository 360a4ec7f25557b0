import WordSwitch.Proofs.Chunk.Case
import WordSwitch.Proofs.Lexicon.Label
import WordSwitch.Proofs.Outline.Rows
import WordSwitch.Proofs.Source.Reading
import WordSwitch.Proofs.WordList.Signs

/-!
# Reading the lines of an outline

Every line of an outline says what it was written for: quoting a chunk can be
undone, the cells in front of it are as many as nodes stand above it, and a label
that is an identifier ends at the space behind it.
-/

namespace WordSwitch
namespace Listing

/-! ## Enumerators -/

theorem isDigit_or_eq_minus
    {value : Int}
    {char : Char}
    (member : char ∈ value.repr.toList) :
    char.isDigit = true ∨ char = '-' := by
  rw [Int.repr_eq_if] at member
  split at member
  · exact .inl (Source.isDigit_of_mem_toString member)
  · rw [String.toList_append, List.mem_append] at member
    rcases member with minus | digit
    · exact .inr (List.mem_singleton.mp minus)
    · exact .inl (Source.isDigit_of_mem_toString digit)

theorem not_mem_repr
    {value : Int}
    {char : Char}
    (notDigit : char.isDigit = false)
    (notMinus : char ≠ '-') :
    char ∉ value.repr.toList := by
  intro member
  rcases isDigit_or_eq_minus member with digit | minus
  · exact Bool.false_ne_true (notDigit.symm.trans digit)
  · exact notMinus minus

theorem not_mem_of_isIdentifier
    {label : String}
    (identifier : Label.isIdentifier label = true)
    {char : Char}
    (notLater : Label.isLater char = false) :
    char ∉ label.toList := by
  intro member
  have later := Label.isLater_of_isIdentifier identifier char member
  exact Bool.false_ne_true (notLater.symm.trans later)

theorem number?_toString (number : Nat) :
    number? 10 (toString number).toList = some number := by
  rw [Nat.toString_eq_ofList_toDigits, String.toList_ofList]
  exact (Numeral.magnitude?_eq_some_iff (.inl rfl)).mpr
    (Numeral.spells_toDigits number)

/-- An integer is what it is written as. -/
theorem integer?_repr (value : Int) :
    integer? value.repr.toList = some value := by
  cases value with
  | ofNat size =>
    have digits := fun char (member : char ∈ (toString size).toList) =>
      Source.isDigit_of_mem_toString member
    have unsigned : integer? (toString size).toList =
        (number? 10 (toString size).toList).map Int.ofNat := by
      rw [integer?]
      intro rest equal
      have impossible := digits '-' (equal ▸ List.mem_cons_self)
      simp at impossible
    exact unsigned.trans (by rw [number?_toString]; rfl)
  | negSucc size =>
    have written : (Int.negSucc size).repr.toList =
        '-' :: (toString (size + 1)).toList := by
      have joined : (Int.negSucc size).repr = "-" ++ toString (size + 1) := rfl
      rw [joined, String.toList_append]
      rfl
    rw [written, integer?, number?_toString]
    rfl

theorem toList_terminalText_some (enumerator : Enumerator) :
    (OutlineRow.terminalText (some enumerator)).toList =
      [] ++ ' ' :: (['=', '>'] ++ ' ' :: (enumerator.label.toList ++
        ' ' :: '(' :: (enumerator.value.repr.toList ++ [')']))) := by
  have written : OutlineRow.terminalText (some enumerator) =
      " => " ++ enumerator.label ++ " (" ++ enumerator.value.repr ++ ")" :=
    rfl
  simp [written]

/-- A line feed is in no identifier and no number. -/
theorem newline_not_mem_enumerator
    {enumerator : Enumerator}
    (identifier : Label.isIdentifier enumerator.label = true) :
    '\n' ∉ (OutlineRow.terminalText (some enumerator)).toList := by
  have labelFree : '\n' ∉ enumerator.label.toList :=
    not_mem_of_isIdentifier identifier (by decide)
  have valueFree : '\n' ∉ enumerator.value.repr.toList :=
    not_mem_repr (by decide) (by decide)
  rw [toList_terminalText_some]
  simp [labelFree, valueFree]

theorem newline_not_mem_marked
    {mark : String}
    (markFree : '\n' ∉ mark.toList)
    {enumerator : Enumerator}
    (identifier : Label.isIdentifier enumerator.label = true) :
    '\n' ∉ (mark ++ OutlineRow.terminalText (some enumerator)).toList := by
  rw [String.toList_append, List.mem_append]
  rintro (inMark | inText)
  · exact markFree inMark
  · exact newline_not_mem_enumerator identifier inText

theorem enumerator?_terminalText
    {enumerator : Enumerator}
    (identifier : Label.isIdentifier enumerator.label = true) :
    enumerator? (OutlineRow.terminalText (some enumerator)).toList =
      some enumerator := by
  have labelFree : ' ' ∉ enumerator.label.toList :=
    not_mem_of_isIdentifier identifier (by decide)
  have spaceFree : ' ' ∉ enumerator.value.repr.toList :=
    not_mem_repr (by decide) (by decide)
  have valuedFree :
      ' ' ∉ '(' :: (enumerator.value.repr.toList ++ [')']) := by
    simp [spaceFree]
  have pieces : (OutlineRow.terminalText (some enumerator)).toList.splitOn ' ' =
      [[], ['=', '>'], enumerator.label.toList,
        '(' :: (enumerator.value.repr.toList ++ [')'])] := by
    rw [toList_terminalText_some,
      List.splitOn_append_cons_self_of_not_mem List.not_mem_nil,
      List.splitOn_append_cons_self_of_not_mem (by decide),
      List.splitOn_append_cons_self_of_not_mem labelFree,
      List.splitOn_eq_singleton valuedFree]
  have numeral : (enumerator.value.repr.toList ++ [')']).splitOn ')' =
      [enumerator.value.repr.toList, []] := by
    rw [List.splitOn_append_cons_self_of_not_mem
      (not_mem_repr (by decide) (by decide))]
    rfl
  have value := integer?_repr enumerator.value
  rw [enumerator?, pieces]
  simp only [numeral, String.ofList_toList, value, Option.map_some]

theorem terminal?_terminalText
    {terminal : Option Enumerator}
    (identifiers : ∀ enumerator ∈ terminal,
      Label.isIdentifier enumerator.label = true) :
    terminal? (OutlineRow.terminalText terminal).toList = some terminal := by
  cases terminal with
  | none => rfl
  | some enumerator =>
    rw [terminal?, if_neg (by simp [toList_terminalText_some]),
      enumerator?_terminalText (identifiers enumerator rfl)]
    rfl

/-! ## Chunks -/

/-- A character that is neither a quote nor a backslash is the byte with its
code. -/
theorem unquote?_cons
    {char : Char}
    (noQuote : char ≠ '"')
    (noBackslash : char ≠ '\\')
    (rest : List Char) :
    unquote? (char :: rest) = (unquote? rest).map (prepend (byteOf char)) := by
  rw [unquote?] <;> simp [noQuote, noBackslash]

/-- Quoting a byte can be undone, whatever follows it. -/
theorem unquote?_quoteByte (byte : UInt8) (rest : List Char) :
    unquote? (OutlineRow.quoteByte byte ++ rest) =
      (unquote? rest).map (prepend byte) := by
  have plain : ∀ other : UInt8,
      (32 ≤ other && other ≤ 126) = true → other ≠ 34 → other ≠ 92 →
        Char.ofNat other.toNat ≠ '"' ∧ Char.ofNat other.toNat ≠ '\\' ∧
          byteOf (Char.ofNat other.toNat) = other :=
    Byte.forall_of_codes (by decide +kernel)
  have hexadecimal : ∀ other : UInt8, (Program.hexPair other).length = 2 ∧
      hexByte? (Program.hexPair other) = some other :=
    Byte.forall_of_codes (by decide +kernel)
  unfold OutlineRow.quoteByte
  split
  · next quote => rw [eq_of_beq quote]; rfl
  split
  · next backslash => rw [eq_of_beq backslash]; rfl
  split
  · next notQuote notBackslash printable =>
    obtain ⟨noQuote, noBackslash, read⟩ := plain byte printable
      (by simpa using notQuote) (by simpa using notBackslash)
    rw [List.singleton_append, unquote?_cons noQuote noBackslash, read]
  · obtain ⟨pair, stands⟩ := hexadecimal byte
    obtain ⟨high, low, digits⟩ := List.length_eq_two.mp pair
    rw [digits] at stands ⊢
    simp only [List.cons_append, List.nil_append, unquote?, stands]

theorem unquote?_quoted (chunk : Bytes) (after : List Char) :
    unquote? (chunk.flatMap OutlineRow.quoteByte ++ '"' :: after) =
      some (chunk, after) := by
  induction chunk with
  | nil => rfl
  | cons byte rest hypothesis =>
    rw [List.flatMap_cons, List.append_assoc, unquote?_quoteByte, hypothesis]
    rfl

/-! ## Rows -/

/-- The characters that cells are drawn with. -/
def cellChars : List Char := ['└', '├', '│', '─', ' ']

theorem mem_cellChars
    {isLast : List Bool}
    {char : Char}
    (member : char ∈ (OutlineRow.cells isLast).toList) :
    char ∈ cellChars := by
  have drawn : ∀ cell ∈ ["└── ", "├── ", "    ", "│   "],
      ∀ other ∈ cell.toList, other ∈ cellChars := by simp [cellChars]
  fun_induction OutlineRow.cells isLast with
  | case1 => cases member
  | case2 => exact drawn "└── " (by simp) char member
  | case3 => exact drawn "├── " (by simp) char member
  | case4 rest _ hypothesis =>
    rw [String.toList_append, List.mem_append] at member
    exact member.elim (drawn "    " (by simp) char) hypothesis
  | case5 rest _ hypothesis =>
    rw [String.toList_append, List.mem_append] at member
    exact member.elim (drawn "│   " (by simp) char) hypothesis

theorem length_cells (isLast : List Bool) :
    (OutlineRow.cells isLast).toList.length = 4 * isLast.length := by
  fun_induction OutlineRow.cells isLast with
  | case1 => rfl
  | case2 => rfl
  | case3 => rfl
  | case4 rest _ hypothesis =>
    have cell : "    ".toList.length = 4 := rfl
    rw [String.toList_append, List.length_append, hypothesis, cell,
      List.length_cons]
    omega
  | case5 rest _ hypothesis =>
    have cell : "│   ".toList.length = 4 := rfl
    rw [String.toList_append, List.length_append, hypothesis, cell,
      List.length_cons]
    omega

theorem toList_text (row : OutlineRow) :
    row.text.toList = (OutlineRow.cells row.isLast).toList ++
      '"' :: (row.chunk.flatMap OutlineRow.quoteByte ++
        '"' :: (OutlineRow.terminalText row.terminal).toList) := by
  simp [OutlineRow.text, OutlineRow.quoteChunk]

theorem row?_text
    {row : OutlineRow}
    (identifiers : ∀ enumerator ∈ row.terminal,
      Label.isIdentifier enumerator.label = true) :
    row? row.text.toList = some row.listed := by
  have noQuote : ∀ char ∈ (OutlineRow.cells row.isLast).toList,
      (char != '"') = true := by
    intro char member
    have all : ∀ other ∈ cellChars, (other != '"') = true := by
      simp [cellChars]
    exact all char (mem_cellChars member)
  have cells : row.text.toList.takeWhile (· != '"') =
      (OutlineRow.cells row.isLast).toList := by
    rw [toList_text, List.takeWhile_append_of_pos noQuote]
    simp
  have after : row.text.toList.drop
      ((OutlineRow.cells row.isLast).toList.length + 1) =
        row.chunk.flatMap OutlineRow.quoteByte ++
          '"' :: (OutlineRow.terminalText row.terminal).toList := by
    rw [toList_text, ← List.drop_drop, List.drop_left]
    rfl
  rw [row?, cells, after, unquote?_quoted, length_cells]
  simp only [terminal?_terminalText identifiers, Option.map_some]
  rw [Nat.mul_div_cancel_left _ (by omega)]
  rfl

/-! ## Lines -/

/-- A line is one line and says something. -/
def Reads (line : String) (item : Item) : Prop :=
  '\n' ∉ line.toList ∧ item? line.toList = some item

theorem reads_blank : Reads "" .blank :=
  ⟨List.not_mem_nil, rfl⟩

theorem reads_heading (length : Nat) :
    Reads s!"length {length}:" (.heading length) := by
  have digits : ∀ char : Char, char.isDigit = false →
      char ∉ (toString length).toList := by
    intro char notDigit member
    exact Bool.false_ne_true
      (notDigit.symm.trans (Source.isDigit_of_mem_toString member))
  have written : s!"length {length}:".toList =
      "length ".toList ++ ((toString length).toList ++ [':']) := by
    have joined : s!"length {length}:" = "length " ++ toString length ++ ":" :=
      rfl
    rw [joined, String.toList_append, String.toList_append, List.append_assoc]
    rfl
  have pieces : ((toString length).toList ++ [':']).splitOn ':' =
      [(toString length).toList, []] := by
    rw [List.splitOn_append_cons_self_of_not_mem (digits ':' (by decide))]
    rfl
  have value := number?_toString length
  rw [Reads, written]
  refine ⟨?_, ?_⟩
  · rw [List.mem_append, List.mem_append]
    rintro (inMark | inDigits | inColon)
    · revert inMark
      decide
    · exact digits '\n' (by decide) inDigits
    · revert inColon
      decide
  · rw [item?, if_neg (by simp), List.dropPrefix?_append_of_beq _ (by simp)]
    simp only [heading?, pieces, value, Option.map_some]

theorem reads_root
    {enumerator : Enumerator}
    (identifier : Label.isIdentifier enumerator.label = true) :
    Reads ("(root)" ++ OutlineRow.terminalText (some enumerator))
      (.row ⟨0, [], some enumerator⟩) := by
  refine ⟨newline_not_mem_marked (by decide) identifier, ?_⟩
  have noHeading : ("(root)".toList ++
      (OutlineRow.terminalText (some enumerator)).toList).dropPrefix?
        "length ".toList = none := rfl
  rw [String.toList_append, item?, if_neg (by simp), noHeading,
    List.dropPrefix?_append_of_beq _ (by simp)]
  simp only [rootRow?, enumerator?_terminalText identifier, Option.map_some]

theorem newline_not_mem_text
    {row : OutlineRow}
    (identifiers : ∀ enumerator ∈ row.terminal,
      Label.isIdentifier enumerator.label = true) :
    '\n' ∉ row.text.toList := by
  have noneInCells : '\n' ∉ cellChars := by simp [cellChars]
  have noneInQuotes : ∀ byte : UInt8, '\n' ∉ OutlineRow.quoteByte byte :=
    Byte.forall_of_codes (by decide +kernel)
  rw [toList_text]
  simp only [List.mem_append, List.mem_cons, List.mem_flatMap]
  rintro (inCells | quote | ⟨byte, _, inByte⟩ | quote | inTerminal)
  · exact noneInCells (mem_cellChars inCells)
  · revert quote
    decide
  · exact noneInQuotes byte inByte
  · revert quote
    decide
  · cases terminal : row.terminal with
    | none =>
      rw [terminal] at inTerminal
      cases inTerminal
    | some enumerator =>
      rw [terminal] at inTerminal
      exact newline_not_mem_enumerator (identifiers enumerator terminal)
        inTerminal

/-- The row of a node begins with a cell or a quote, so it is neither a heading
nor the row of the root. -/
theorem head_text (row : OutlineRow) :
    ∃ first rest, row.text.toList = first :: rest ∧
      first ∈ '"' :: cellChars := by
  rw [toList_text]
  cases cells : (OutlineRow.cells row.isLast).toList with
  | nil => exact ⟨_, _, rfl, List.mem_cons_self⟩
  | cons first rest =>
    have drawn : first ∈ (OutlineRow.cells row.isLast).toList := by
      rw [cells]
      exact List.mem_cons_self
    exact ⟨first, _, rfl, List.mem_cons_of_mem _ (mem_cellChars drawn)⟩

theorem reads_row
    {row : OutlineRow}
    (identifiers : ∀ enumerator ∈ row.terminal,
      Label.isIdentifier enumerator.label = true) :
    Reads row.text (.row row.listed) := by
  obtain ⟨first, rest, text_eq, drawn⟩ := head_text row
  have others : first ≠ 'l' ∧ first ≠ '(' := by
    simp only [cellChars, List.mem_cons, List.not_mem_nil, or_false] at drawn
    rcases drawn with rfl | rfl | rfl | rfl | rfl | rfl <;> simp
  have noHeading : row.text.toList.dropPrefix? "length ".toList = none := by
    simp [text_eq, List.dropPrefix?, others.1]
  have noRoot : row.text.toList.dropPrefix? "(root)".toList = none := by
    simp [text_eq, List.dropPrefix?, others.2]
  refine ⟨newline_not_mem_text identifiers, ?_⟩
  rw [item?, if_neg (by simp [text_eq]), noHeading, noRoot]
  simp only [row?_text identifiers, Option.map_some]

end Listing
end WordSwitch
