import WordSwitch.Recognizer.Basic
import WordSwitch.Trie.Nodes

/-!
# Reports on building a recognizer

What can be said while a recognizer is built: the sizes of the tries, the
chunks of each node that is recut, and the words that others hide when
collisions are not refused.
-/

namespace WordSwitch

/-- How much attention a report deserves, most first. -/
inductive Severity where
  | warn
  | info
  | debug
  | trace
deriving DecidableEq, Repr

namespace Severity

/-- The place in the order, zero for the most attention. -/
def rank : Severity → Nat
  | warn => 0
  | info => 1
  | debug => 2
  | trace => 3

/-- The name in upper case. -/
def name : Severity → String
  | warn => "WARN"
  | info => "INFO"
  | debug => "DEBUG"
  | trace => "TRACE"

end Severity

/-- A message with its severity. -/
structure Report where
  severity : Severity
  message : String
deriving DecidableEq, Repr

namespace Report

/-- A list in brackets, its members separated by commas. -/
def bracketed (members : List String) : String :=
  "[" ++ ", ".intercalate members ++ "]"

/-- The widths of the chunks on each level. -/
def widths (levels : List (List Nat)) : String :=
  bracketed (levels.map fun level => bracketed (level.map toString))

/-- The report on a node that was recut; a leaf has none. -/
def ofNode? (node : Node) : Option Report :=
  match node.chunks with
  | [] => none
  | chunk :: others =>
    some ⟨.trace, s!"node {node.number}: {others.length + 1} chunk(s) " ++
      s!"of width {chunk.length}"⟩

end Report

namespace Lexicon

/-- The reports on restricting a base trie to one length. -/
def lengthReports
    (config : RecognizerConfig)
    (base : Trie)
    (length : Nat) :
    List Report :=
  match base.ofLength? length with
  | none => []
  | some filtered =>
    let recut := config.recut filtered
    recut.nodes.filterMap Report.ofNode? ++
      [⟨.debug, s!"length {length}: {filtered.size} nodes filtered, " ++
        s!"{recut.size} rebuilt, widths {Report.widths recut.levelWidths}"⟩]

/-- The reports on building a recognizer, if it can be built. -/
def recognizerReports
    (lexicon : Lexicon)
    (config : RecognizerConfig) :
    List Report :=
  match lexicon.recognizer config with
  | .error _ => []
  | .ok recognizer =>
    let base := lexicon.baseTrie config
    [⟨.info, s!"Building trie for {lexicon.size} words..."⟩,
      ⟨.info, s!"Base trie has {base.size} nodes."⟩] ++
      lexicon.lengths.flatMap (lengthReports config base) ++
      [⟨.info, s!"Specialized {recognizer.tries.length} word lengths."⟩]

/-- The reports on entries whose key is inserted a second time. -/
def shadowReportsFrom
    (config : RecognizerConfig) :
    Trie → List Entry → List Report
  | _, [] => []
  | trie, entry :: rest =>
    let following := shadowReportsFrom config
      (insertEntry config trie entry) rest
    match trie.replaced? (config.key entry.word) with
    | none => following
    | some hidden =>
      ⟨.warn, s!"{Text.quoteBytes entry.word} shadows {hidden.label} " ++
        s!"with {entry.label}"⟩ :: following

/-- The reports on words that hide others in the base trie. -/
def shadowReports
    (lexicon : Lexicon)
    (config : RecognizerConfig) :
    List Report :=
  shadowReportsFrom config (.empty config.widthLimit) lexicon.entries

end Lexicon

end WordSwitch
