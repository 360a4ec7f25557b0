import WordSwitch.Program.Units
import WordSwitch.Proofs.Source.Phrase

/-!
# Phrases of generated code

The phrases that the lines of generated code hold, each in front of the phrase
that follows it.
-/

namespace WordSwitch

open Source

namespace CodeConfig

/-- The phrase of an enumerator. -/
def enumeratorPhrase
    (config : CodeConfig)
    (label : String)
    (next : Phrase) :
    Phrase :=
  if config.enumClass then
    .atom (.word config.enumName) (.atom (.mark ':') (.atom (.mark ':')
      (.atom (.word label) next)))
  else .atom (.word label) next

/-- How an enumerator is qualified. -/
def path (config : CodeConfig) (label : String) : List String :=
  if config.enumClass then [config.enumName, label] else [label]

end CodeConfig

namespace Program

/-- The name of the macro that puts a byte in its place. -/
def placeMacro : String := "TRIE_HASH_ONECHAR"

/-- The name of the macro of the include guard. -/
def guardMacro (config : CodeConfig) : String :=
  s!"TRIE_HASH_{config.functionName}"

/-- The phrase of a part of a wide constant. -/
def placedPhrase
    (bits shift : Nat)
    (byte : UInt8)
    (next : Phrase) :
    Phrase :=
  .atom (.word placeMacro) (.group .round
    (.atom (.character byte) (.atom (.mark ',') (.atom (.numeral shift false)
      (.atom (.mark ',') (.atom (.numeral bits false) .nil))))) next)

/-- The phrase of the parts of a wide constant after the first. -/
def laterPartsPhrase
    (bits : Nat) :
    (shift : Nat) → Bytes → Phrase → Phrase
  | _, [], next => next
  | shift, byte :: rest, next =>
    .atom (.mark '|') (placedPhrase bits shift byte
      (laterPartsPhrase bits (shift + 8) rest next))

/-- The phrase of a constant. -/
def constantPhrase : Bytes → Phrase → Phrase
  | [], next => next
  | [byte], next => .atom (.character byte) next
  | byte :: rest, next =>
    let bits := 8 * (byte :: rest).length
    placedPhrase bits 0 byte (laterPartsPhrase bits 8 rest next)

/-- The phrase of what a switch reads. -/
def Subject.readPhrase
    (subject : Subject)
    (config : CodeConfig)
    (next : Phrase) :
    Phrase :=
  if subject.width = 1 then
    .atom (.word "string") (.group .square
      (.atom (.numeral subject.offset false) .nil) next)
  else
    .atom (.word (config.loadFunction (8 * subject.width)))
      (.group .round (.atom (.word "string") (.atom (.mark '+')
        (.atom (.numeral subject.offset false) .nil))) next)

/-- The phrase of what a switch depends on. -/
def Subject.phrase (subject : Subject) (config : CodeConfig) : Phrase :=
  subject.readPhrase config
    (if subject.isFolded then
      .atom (.mark '|') (.atom
        (.numeral (Chunk.foldMask subject.width) (subject.width == 8)) .nil)
    else .nil)

/-- The phrase of a statement that marks the input as unused. -/
def unusedPhrase (next : Phrase) : Phrase :=
  .group .round (.atom (.word "void") .nil)
    (.atom (.word "string") (.atom (.mark ';') next))

/-- The phrase of a statement that returns an enumerator. -/
def answerPhrase
    (config : CodeConfig)
    (label : String)
    (next : Phrase) :
    Phrase :=
  .atom (.word "return")
    (config.enumeratorPhrase label (.atom (.mark ';') next))

/-- The phrase of some code. -/
def Code.phrase (config : CodeConfig) : Code → Phrase
  | .nil => .nil
  | .unused next => unusedPhrase (next.phrase config)
  | .constant chunk next =>
    .atom (.word "case")
      (constantPhrase chunk (.atom (.mark ':') (next.phrase config)))
  | .answer label next => answerPhrase config label (next.phrase config)
  | .leave next =>
    .atom (.word "break") (.atom (.mark ';') (next.phrase config))
  | .switch subject body next =>
    .atom (.word "switch") (.group .round (subject.phrase config)
      (.group .curly (body.phrase config) (next.phrase config)))

/-! ## Functions -/

/-- Words in front of a phrase. -/
def wordsPhrase (names : List String) (next : Phrase) : Phrase :=
  names.foldr (fun name next => .atom (.word name) next) next

/-- The phrase of a parameter that points into the input. -/
def pointerPhrase (name : String) (next : Phrase) : Phrase :=
  wordsPhrase ["const", "char"]
    (.atom (.mark '*') (.atom (.word name) next))

/-- The type of what is read at once. -/
def readType (bits : Nat) : String := s!"uint{bits}_t"

/-- The phrase of the function that reads some bits at once. -/
def loadPhrase (config : CodeConfig) (bits : Nat) (next : Phrase) : Phrase :=
  wordsPhrase ["static", "inline", readType bits, config.loadFunction bits]
    (.group .round (pointerPhrase "p" .nil) (.group .curly
      (wordsPhrase [readType bits, "v"] (.atom (.mark ';')
        (.atom (.word "memcpy") (.group .round
          (.atom (.mark '&') (.atom (.word "v") (.atom (.mark ',')
            (.atom (.word "p") (.atom (.mark ',')
              (wordsPhrase ["sizeof", "v"] .nil))))))
          (.atom (.mark ';') (wordsPhrase ["return", "v"]
            (.atom (.mark ';') .nil))))))) next))

/-- The words of the type of the enumeration. -/
def returnWords (config : CodeConfig) : List String :=
  if config.enumClass then [config.enumName] else ["enum", config.enumName]

/-- The phrase of the function for one length. -/
def lengthFunctionPhrase
    (config : CodeConfig)
    (length : Nat)
    (code : Code)
    (next : Phrase) :
    Phrase :=
  wordsPhrase ("static" :: returnWords config ++ [config.lengthFunction length])
    (.group .round (pointerPhrase "string" .nil)
      (.group .curly (code.phrase config) next))

/-- The phrase of the choice among the functions by the length. -/
def choicePhrase
    (config : CodeConfig) :
    List (Nat × Code) → Phrase → Phrase
  | [], next => next
  | (length, _) :: rest, next =>
    .atom (.word "case") (.atom (.numeral length false) (.atom (.mark ':')
      (wordsPhrase ["return", config.lengthFunction length]
        (.group .round (.atom (.word "string") .nil)
          (.atom (.mark ';') (choicePhrase config rest next))))))

/-- The phrase of the body of the entry function. -/
def entryBodyPhrase
    (config : CodeConfig)
    (definitions : Program.Definitions) :
    Phrase :=
  let choice :=
    .atom (.word "switch") (.group .round (.atom (.word "length") .nil)
      (.group .curly
        (choicePhrase config definitions.functions
          (.atom (.word "default") (.atom (.mark ':')
            (answerPhrase config definitions.fallback .nil)))) .nil))
  if definitions.functions.isEmpty then unusedPhrase choice else choice

/-- The phrase of the entry function. -/
def entryFunctionPhrase
    (config : CodeConfig)
    (definitions : Program.Definitions)
    (next : Phrase) :
    Phrase :=
  wordsPhrase ((if config.isSplit then [] else ["static"]) ++
      returnWords config ++ [config.functionName])
    (.group .round
      (pointerPhrase "string" (.atom (.mark ',')
        (wordsPhrase ["size_t", "length"] .nil)))
      (.group .curly (entryBodyPhrase config definitions) next))

/-- The phrase of some functions with C linkage, which is written in C++
alone. -/
def linkagePhrase
    (config : CodeConfig)
    (isCplusplus : Bool)
    (inside : Phrase) :
    Phrase :=
  if config.externC && isCplusplus then
    .atom (.word "extern") (.atom .literal (.group .curly inside .nil))
  else inside

/-- The phrase of the rest of a name in double colons. -/
def scopesPhrase : List (List Char) → Phrase → Phrase
  | [], next => next
  | segment :: rest, next =>
    .atom (.mark ':') (.atom (.mark ':')
      (.atom (.word (String.ofList segment)) (scopesPhrase rest next)))

/-- The phrase of some functions in the namespace. -/
def namespacePhrase (config : CodeConfig) (inside : Phrase) : Phrase :=
  match config.namespaceName with
  | none => inside
  | some name =>
    match CodeConfig.segments name.toList with
    | [] => inside
    | segment :: rest =>
      wordsPhrase ["namespace", String.ofList segment]
        (scopesPhrase rest (.group .curly inside .nil))

/-- The phrase of all functions. -/
def definitionsPhrase
    (config : CodeConfig)
    (isCplusplus : Bool)
    (wideWidths : List Nat)
    (definitions : Program.Definitions) :
    Phrase :=
  let entry := entryFunctionPhrase config definitions .nil
  wideWidths.foldr (fun width => loadPhrase config (8 * width))
    (namespacePhrase config
      (definitions.functions.foldr
        (fun (length, code) => lengthFunctionPhrase config length code)
        (linkagePhrase config isCplusplus entry)))

/-! ## What follows a phrase -/

theorem enumeratorPhrase_append
    (config : CodeConfig)
    (label : String)
    (next after : Phrase) :
    (config.enumeratorPhrase label next).append after =
      config.enumeratorPhrase label (next.append after) := by
  unfold CodeConfig.enumeratorPhrase
  split <;> rfl

theorem answerPhrase_append
    (config : CodeConfig)
    (label : String)
    (next after : Phrase) :
    (answerPhrase config label next).append after =
      answerPhrase config label (next.append after) := by
  unfold answerPhrase
  rw [Phrase.append, enumeratorPhrase_append, Phrase.append]

theorem laterPartsPhrase_append
    (bits shift : Nat)
    (bytes : Bytes)
    (next after : Phrase) :
    (laterPartsPhrase bits shift bytes next).append after =
      laterPartsPhrase bits shift bytes (next.append after) := by
  induction bytes generalizing shift with
  | nil => rfl
  | cons byte rest hypothesis =>
    simp only [laterPartsPhrase, placedPhrase, Phrase.append, hypothesis]

theorem constantPhrase_append
    (chunk : Bytes)
    (next after : Phrase) :
    (constantPhrase chunk next).append after =
      constantPhrase chunk (next.append after) := by
  unfold constantPhrase
  split
  · rfl
  · rfl
  · simp only [placedPhrase, Phrase.append, laterPartsPhrase_append]

theorem readPhrase_append
    (subject : Subject)
    (config : CodeConfig)
    (next after : Phrase) :
    (subject.readPhrase config next).append after =
      subject.readPhrase config (next.append after) := by
  unfold Subject.readPhrase
  split <;> rfl

end Program
end WordSwitch
