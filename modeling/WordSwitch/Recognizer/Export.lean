import WordSwitch.Recognizer.Basic
import WordSwitch.Text.Json

/-!
# Exports

A lexicon and the tries of its recognizer as a record, the fields of which
are in alphabetical order.
-/

namespace WordSwitch
namespace JsonTree

/-- An enumerator as a record. -/
def ofEnumerator (member : Enumerator) : JsonTree :=
  .record [("label", .text member.label), ("value", .number member.value)]

/-- A word and its enumerator as a record. -/
def ofSpelling (spelling : Spelling) : JsonTree :=
  .record [("label", .text spelling.2.label),
    ("value", .number spelling.2.value),
    ("word", .text (Text.decode spelling.1))]

/-- The trie for one length as a record. -/
def ofLengthTrie (length : Nat) (trie : Trie) : JsonTree :=
  .record [("depth", natural trie.depth), ("length", natural length),
    ("nodes", natural trie.size), ("widths", ofWidths trie.levelWidths),
    ("words", .list (trie.words.map ofSpelling))]

/-- A lexicon and its recognizer as a record. -/
def ofLexicon (lexicon : Lexicon) (recognizer : Recognizer) : JsonTree :=
  .record
    [("entries", .list (lexicon.entries.map fun entry =>
        ofSpelling (entry.word, entry.enumerator))),
      ("enumeration", .list (lexicon.enumeration.map ofEnumerator)),
      ("fallback", ofEnumerator recognizer.fallback),
      ("ignore_case", .boolean recognizer.ignoreCase),
      ("lengths", .list (recognizer.tries.map fun (length, trie) =>
        ofLengthTrie length trie)),
      ("max_chunk_width", natural recognizer.maxChunkWidth)]

end JsonTree

end WordSwitch
