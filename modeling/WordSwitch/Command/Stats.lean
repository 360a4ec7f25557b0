import WordSwitch.Command.Generate

/-!
# Statistics

The command that reads a word list and prints how its tries look: for each
length, how many words and nodes there are, how deep the trie is, and which
widths its levels read.
-/

namespace WordSwitch
namespace Command

/-- The shape of the trie for one length. -/
structure LengthProfile where
  length : Nat
  words : Nat
  nodes : Nat
  depth : Nat
  widths : List (List Nat)
deriving DecidableEq, Repr

namespace LengthProfile

/-- The shape of a trie. -/
def ofTrie (length : Nat) (trie : Trie) : LengthProfile :=
  ⟨length, trie.words.length, trie.size, trie.depth, trie.levelWidths⟩

/-- A text with spaces in front, at least six characters long. -/
def column (text : String) : String :=
  String.ofList (List.replicate (6 - text.length) ' ') ++ text

/-- Four columns and what follows them. -/
def row (length words nodes depth widths : String) : String :=
  s!"{column length} {column words} {column nodes} {column depth}  {widths}"

/-- The widths of all levels. -/
def widthsText (levels : List (List Nat)) : String :=
  " ".intercalate (levels.map fun level =>
    "/".intercalate (level.map toString))

/-- The line for one length. -/
def line (profile : LengthProfile) : String :=
  row (toString profile.length) (toString profile.words)
    (toString profile.nodes) (toString profile.depth)
    (widthsText profile.widths)

/-- The record for one length. -/
def tree (profile : LengthProfile) : JsonTree :=
  .record [("length", .natural profile.length),
    ("words", .natural profile.words), ("nodes", .natural profile.nodes),
    ("depth", .natural profile.depth), ("widths", .ofWidths profile.widths)]

end LengthProfile

/-- The shapes of the tries of a recognizer. -/
structure Profile where
  lengths : List LengthProfile
deriving DecidableEq, Repr

namespace Profile

/-- The shapes of the tries of a recognizer. -/
def ofRecognizer (recognizer : Recognizer) : Profile :=
  ⟨recognizer.tries.map fun (length, trie) => .ofTrie length trie⟩

/-- The number of words. -/
def words (profile : Profile) : Nat :=
  (profile.lengths.map LengthProfile.words).foldl (· + ·) 0

/-- The number of nodes. -/
def nodes (profile : Profile) : Nat :=
  (profile.lengths.map LengthProfile.nodes).foldl (· + ·) 0

/-- The largest depth. -/
def depth (profile : Profile) : Nat :=
  (profile.lengths.map LengthProfile.depth).foldl max 0

/-- The shapes as a table. -/
def table (profile : Profile) : String :=
  Lines.text
    ([s!"{profile.words} words, {profile.nodes} nodes, " ++
        s!"max depth {profile.depth}",
      LengthProfile.row "length" "words" "nodes" "depth" "widths"] ++
      profile.lengths.map LengthProfile.line)

/-- The shapes as a record. -/
def tree (profile : Profile) : JsonTree :=
  .record [("words", .natural profile.words),
    ("lengths", .list (profile.lengths.map LengthProfile.tree)),
    ("total_nodes", .natural profile.nodes),
    ("max_depth", .natural profile.depth)]

end Profile

/-- What is asked of the statistics. -/
structure StatsOptions where
  input : Path
  recognizer : RecognizerConfig
  /-- Whether a record is printed instead of a table. -/
  asRecord : Bool

/-- The options of the statistics. -/
def statsForms : List OptionForm :=
  [.named "ignore-case" .flag,
    .named "multi-byte" .flag,
    .named "max-chunk-width" (.value isSize),
    .named "json" .flag,
    ⟨"help", [], some 'h', .help⟩]

namespace Arguments

/-- What is asked of the statistics. -/
def statsOptions (arguments : Arguments) : StatsOptions :=
  ⟨arguments.input, arguments.recognizer, arguments.has "json"⟩

end Arguments

namespace StatsOptions

/-- What the statistics do with an opened word list. -/
def effects
    (options : StatsOptions)
    (input : Except FileFailure Source) :
    Except Failure (List Effect) := do
  let lexicon ← readInput options.input input
  let recognizer ←
    (lexicon.recognizer options.recognizer).mapError .recognizer
  let profile := Profile.ofRecognizer recognizer
  return [.print
    (if options.asRecord then profile.tree.document else profile.table)]

end StatsOptions

end Command
end WordSwitch
