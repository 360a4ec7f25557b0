import WordSwitch.Proofs.Program.Phrases
import WordSwitch.Proofs.Program.Shape
import WordSwitch.Proofs.Source.Semantics

/-!
# Expressions and functions of generated code

What the phrases of generated code are read as: the expressions of constants
and of what switches depend on, the sequences of some code, and the functions.
-/

namespace WordSwitch

open Source

namespace Program

/-! ## Expressions -/

/-- A part of a wide constant. -/
def placedTerm (bits shift : Nat) (byte : UInt8) : Expression :=
  .call placeMacro (.binary .comma
    (.binary .comma (.character byte) (.numeral shift false))
    (.numeral bits false))

/-- The parts of a wide constant after some others. -/
def laterPartsTerm
    (bits : Nat) :
    (shift : Nat) → Bytes → (earlier : Expression) → Expression
  | _, [], earlier => earlier
  | shift, byte :: rest, earlier =>
    laterPartsTerm bits (shift + 8) rest
      (.binary .or earlier (placedTerm bits shift byte))

/-- A constant. -/
def constantTerm : Bytes → Expression
  | [] => .numeral 0 false
  | [byte] => .character byte
  | byte :: rest =>
    let bits := 8 * (byte :: rest).length
    laterPartsTerm bits 8 rest (placedTerm bits 0 byte)

/-- What a switch reads. -/
def Subject.readTerm (subject : Subject) (config : CodeConfig) : Expression :=
  if subject.width = 1 then
    .index "string" (.numeral subject.offset false)
  else
    .call (config.loadFunction (8 * subject.width))
      (.binary .plus (.name "string") (.numeral subject.offset false))

/-- What a switch depends on. -/
def Subject.term (subject : Subject) (config : CodeConfig) : Expression :=
  if subject.isFolded then
    .binary .or (subject.readTerm config)
      (.numeral (Chunk.foldMask subject.width) (subject.width == 8))
  else subject.readTerm config

/-- The macro that puts a byte in its place. -/
def placeDefinition (isBigEndian : Bool) : Macro :=
  let byte : Expression := .cast .long (.cast .byte (.name "c"))
  .function placeMacro ["c", "s", "l"]
    (if isBigEndian then
      .binary .shift byte (.binary .minus
        (.binary .minus (.name "l") (.numeral 8 false)) (.name "s"))
    else .binary .shift byte (.name "s"))

/-- The macros that are defined after the definitions, given those before.  The
macro that puts a byte in its place is not defined again. -/
def placeMacros
    (environment : Environment)
    (before : List Macro)
    (wideWidths : List Nat) :
    List Macro :=
  if wideWidths.isEmpty || before.any (·.name == placeMacro) then before
  else placeDefinition environment.platform.isBigEndian :: before

/-! ## Reading expressions -/

theorem expressionFrom?_placedPhrase
    (bits shift : Nat)
    (byte : UInt8)
    (pending : Expression.Pending)
    (next : Phrase) :
    Phrase.expressionFrom? pending [] none (placedPhrase bits shift byte next) =
      Phrase.expressionFrom? pending [] (some (placedTerm bits shift byte))
        next := by
  rfl

/-- The parts of a wide constant are read from the left to the right. -/
theorem expressionFrom?_laterPartsPhrase
    (bits shift : Nat)
    (bytes : Bytes)
    {pending : Expression.Pending}
    {left : Expression}
    (waiting : Expression.reduce 2 pending left =
      ([], (Expression.reduce 0 pending left).2)) :
    Phrase.expressionFrom? pending [] (some left)
        (laterPartsPhrase bits shift bytes .nil) =
      some (laterPartsTerm bits shift bytes
        (Expression.reduce 0 pending left).2) := by
  induction bytes generalizing shift pending left with
  | nil => rfl
  | cons byte rest hypothesis =>
    rw [laterPartsPhrase, Phrase.expressionFrom?, expressionFrom?_placedPhrase,
      hypothesis]
    · simp only [Expression.wait, Operator.strength, waiting,
        Expression.reduce, laterPartsTerm]
      rfl
    · simp only [Expression.wait, Operator.strength, waiting,
        Expression.reduce]
      rfl

/-- The phrase of a constant is read as the constant. -/
theorem expression?_constantPhrase
    {chunk : Bytes}
    (nonempty : chunk ≠ []) :
    (constantPhrase chunk .nil).expression? = some (constantTerm chunk) := by
  match chunk with
  | [] => exact absurd rfl nonempty
  | [byte] => rfl
  | first :: second :: rest =>
    rw [constantPhrase, Phrase.expression?, expressionFrom?_placedPhrase]
    · exact expressionFrom?_laterPartsPhrase _ 8 (second :: rest) rfl
    · intro impossible
      cases impossible

/-- The phrase of what a switch depends on is read as that. -/
theorem expression?_subjectPhrase (subject : Subject) (config : CodeConfig) :
    (subject.phrase config).expression? = some (subject.term config) := by
  unfold Subject.phrase Subject.term Subject.readPhrase Subject.readTerm
  split
  · split <;> rfl
  · split <;> rfl

/-! ## Sequences -/

/-- What some code is read as. -/
def Code.sequence (config : CodeConfig) : Code → Sequence
  | .nil => .nil
  | .unused next => .unused "string" (next.sequence config)
  | .constant chunk next =>
    .label (constantTerm chunk) (next.sequence config)
  | .answer label next => .answer (config.path label) (next.sequence config)
  | .leave next => .leave (next.sequence config)
  | .switch subject body next =>
    .switch (subject.term config) (body.sequence config)
      (next.sequence config)

/-- Nothing in a phrase ends the constant of a label. -/
def WithoutColon : Phrase → Prop
  | .nil => True
  | .atom first next => first ≠ .mark ':' ∧ WithoutColon next
  | .group _ _ next => WithoutColon next

theorem withoutColon_laterPartsPhrase
    (bits shift : Nat)
    (bytes : Bytes) :
    WithoutColon (laterPartsPhrase bits shift bytes .nil) := by
  induction bytes generalizing shift with
  | nil => trivial
  | cons byte rest hypothesis =>
    simp [laterPartsPhrase, placedPhrase, WithoutColon, hypothesis]

theorem withoutColon_constantPhrase (chunk : Bytes) :
    WithoutColon (constantPhrase chunk .nil) := by
  unfold constantPhrase
  split
  · trivial
  · simp [WithoutColon]
  · simp [placedPhrase, WithoutColon, withoutColon_laterPartsPhrase]

/-- The constant of a label ends at the colon. -/
theorem sequenceFrom?_label
    {phrase : Phrase}
    (withoutColon : WithoutColon phrase)
    (written next : Phrase) :
    Phrase.sequenceFrom? (some written)
        (phrase.append (.atom (.mark ':') next)) =
      (written.append phrase).expression?.bind fun constant =>
        (Phrase.sequenceFrom? none next).map (.label constant) := by
  induction phrase generalizing written with
  | nil =>
    rw [Phrase.append_nil]
    rfl
  | atom first rest hypothesis =>
    obtain ⟨other, restWithout⟩ := withoutColon
    rw [Phrase.append, Phrase.sequenceFrom?, hypothesis restWithout,
      Phrase.append_assoc]
    · rfl
    · exact other
  | group bracket inside rest _ hypothesis =>
    rw [Phrase.append, Phrase.sequenceFrom?, hypothesis withoutColon,
      Phrase.append_assoc]
    rfl

theorem sequenceFrom?_answerPhrase
    (config : CodeConfig)
    (label : String)
    (next : Phrase) :
    Phrase.sequenceFrom? none (answerPhrase config label next) =
      (Phrase.sequenceFrom? none next).map (.answer (config.path label)) := by
  unfold answerPhrase CodeConfig.enumeratorPhrase CodeConfig.path
  split <;> rfl

/-- The phrase of some code is read as that code. -/
theorem sequence?_phrase
    {length width : Nat}
    {code : Code}
    (fits : code.Fits length width)
    (config : CodeConfig) :
    (code.phrase config).sequence? = some (code.sequence config) := by
  unfold Phrase.sequence?
  induction code generalizing width with
  | nil => rfl
  | unused next hypothesis =>
    exact congrArg (Option.map (Sequence.unused "string")) (hypothesis fits)
  | constant chunk next hypothesis =>
    have later := hypothesis fits.2
    have phrase := constantPhrase_append chunk .nil
      (.atom (.mark ':') (next.phrase config))
    rw [Phrase.append] at phrase
    change Phrase.sequenceFrom? (some .nil) (constantPhrase chunk
      (.atom (.mark ':') (next.phrase config))) = _
    rw [← phrase, sequenceFrom?_label (withoutColon_constantPhrase chunk),
      later, Phrase.append, expression?_constantPhrase fits.1.1]
    rfl
  | answer label next hypothesis =>
    rw [Code.phrase, sequenceFrom?_answerPhrase, hypothesis fits.2]
    rfl
  | leave next hypothesis =>
    exact congrArg (Option.map Sequence.leave) (hypothesis fits)
  | switch subject body next body_sequence next_sequence =>
    have bodyRead := body_sequence fits.2.1
    have later := next_sequence fits.2.2
    change ((subject.phrase config).expression?.bind fun subject =>
      (Phrase.sequenceFrom? none (body.phrase config)).bind fun body =>
        (Phrase.sequenceFrom? none (next.phrase config)).map
          (Sequence.switch subject body)) = _
    rw [expression?_subjectPhrase, bodyRead, later]
    rfl

end Program
end WordSwitch
