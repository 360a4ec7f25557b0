import WordSwitch.Lexicon.Collision
import WordSwitch.Text.Quoted
import WordSwitch.Trie.Length
import WordSwitch.Trie.Levels
import WordSwitch.Trie.Recut

/-!
# Recognizers

A recognizer holds one trie for every length of word.  It is built from a
lexicon by inserting all words into a base trie, which is then restricted to
each length and recut.  When case is ignored, words are inserted in lowercase,
so words that differ only in case are refused.
-/

namespace WordSwitch

/-- How words are recognized. -/
structure RecognizerConfig where
  /-- Whether the case of letters is ignored. -/
  ignoreCase : Bool
  /-- Whether several bytes may be compared at once. -/
  multiByte : Bool
  /-- The largest number of bytes that may be compared at once. -/
  maxChunkWidth : Nat
deriving DecidableEq, Repr

namespace RecognizerConfig

/-- The widest chunk of the tries. -/
def widthLimit (config : RecognizerConfig) : Nat :=
  if config.multiByte then config.maxChunkWidth else 1

/-- The form in which a word is inserted. -/
def key (config : RecognizerConfig) (word : Bytes) : Bytes :=
  if config.ignoreCase then Bytes.lower word else word

/-- How the tries are recut. -/
def recut (config : RecognizerConfig) (trie : Trie) : Trie :=
  trie.recut config.ignoreCase config.widthLimit

end RecognizerConfig

/-- Why no recognizer can be built. -/
inductive RecognizerError where
  /-- Two words differ only in case. -/
  | caseCollision (first second : Bytes)
  /-- No read has the configured width. -/
  | unreadableWidth (width : Nat)
deriving DecidableEq, Repr

namespace RecognizerError

/-- The text of an error. -/
def message : RecognizerError → String
  | caseCollision first second =>
    s!"words {Text.quoteBytes first} and {Text.quoteBytes second} " ++
      "differ only in case and cannot both be matched case-insensitively"
  | unreadableWidth width => s!"chunk width {width} is not one of 1, 2, 4 or 8"

end RecognizerError

/-- One trie for each length of word, and what all other inputs stand for. -/
structure Recognizer where
  ignoreCase : Bool
  /-- The widest chunk of the tries. -/
  maxChunkWidth : Nat
  /-- The tries with the lengths of their words, ascending. -/
  tries : List (Nat × Trie)
  fallback : Enumerator
deriving DecidableEq, Repr

namespace RecognizerConfig

/-- Refuse a width that no read has. -/
def check (config : RecognizerConfig) : Except RecognizerError Unit :=
  if Chunk.readableWidths.contains config.maxChunkWidth then .ok ()
  else .error (.unreadableWidth config.maxChunkWidth)

end RecognizerConfig

namespace Lexicon

/-- Insert an entry. -/
def insertEntry
    (config : RecognizerConfig)
    (trie : Trie)
    (entry : Entry) :
    Trie :=
  trie.insert (config.key entry.word) entry.enumerator

/-- The trie of all words. -/
def baseTrie (lexicon : Lexicon) (config : RecognizerConfig) : Trie :=
  lexicon.entries.foldl (insertEntry config) (.empty config.widthLimit)

/-- The tries of the words of each length. -/
def lengthTries
    (lexicon : Lexicon)
    (config : RecognizerConfig) :
    List (Nat × Trie) :=
  let base := lexicon.baseTrie config
  lexicon.lengths.filterMap fun length =>
    (base.ofLength? length).map fun trie => (length, config.recut trie)

/-- Refuse words that differ only in case if case is ignored. -/
def checkCollisions
    (lexicon : Lexicon)
    (config : RecognizerConfig) :
    Except RecognizerError Unit :=
  if config.ignoreCase then
    match lexicon.collisions with
    | [] => .ok ()
    | (first, second) :: _ => .error (.caseCollision first.word second.word)
  else
    .ok ()

/-- The recognizer of the words. -/
def recognizer
    (lexicon : Lexicon)
    (config : RecognizerConfig) :
    Except RecognizerError Recognizer := do
  config.check
  lexicon.checkCollisions config
  return ⟨config.ignoreCase, config.widthLimit, lexicon.lengthTries config,
    lexicon.fallback⟩

end Lexicon

namespace Recognizer

/-- The lengths of the words, ascending. -/
def lengths (recognizer : Recognizer) : List Nat :=
  recognizer.tries.map (·.1)

/-- The widths of all chunks wider than one byte, ascending. -/
def wideWidths (recognizer : Recognizer) : List Nat :=
  ascending ((recognizer.tries.flatMap (·.2.levelWidths.flatten)).filter
    (1 < ·))

/-- Whether some chunk is wider than one byte. -/
def usesMultiByte (recognizer : Recognizer) : Bool :=
  recognizer.tries.any (·.2.levelWidths.flatten.any (1 < ·))

/-- All words that are recognized, as they are stored. -/
def acceptedWords (recognizer : Recognizer) : List Spelling :=
  recognizer.tries.flatMap (·.2.words)

end Recognizer

end WordSwitch
