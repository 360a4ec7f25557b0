import WordSwitch.Ascending
import WordSwitch.Bytes
import WordSwitch.Chunk.Case
import WordSwitch.Chunk.Comparison
import WordSwitch.Chunk.Width
import WordSwitch.Command.Arguments
import WordSwitch.Command.Effect
import WordSwitch.Command.Failure
import WordSwitch.Command.Generate
import WordSwitch.Command.Input
import WordSwitch.Command.Run
import WordSwitch.Command.Stats
import WordSwitch.Enumerator
import WordSwitch.File.Failure
import WordSwitch.File.Path
import WordSwitch.File.Source
import WordSwitch.File.Tree
import WordSwitch.Gzip.Bits
import WordSwitch.Gzip.Checksum
import WordSwitch.Gzip.Huffman
import WordSwitch.Gzip.Inflate
import WordSwitch.Gzip.Member
import WordSwitch.Lexicon.Basic
import WordSwitch.Lexicon.Collision
import WordSwitch.Lexicon.Label
import WordSwitch.Lexicon.Notice
import WordSwitch.Lexicon.OrderedMap
import WordSwitch.Lexicon.Value
import WordSwitch.Main
import WordSwitch.Outline
import WordSwitch.Program.Code
import WordSwitch.Program.Config
import WordSwitch.Program.Execution
import WordSwitch.Program.Lines
import WordSwitch.Program.Units
import WordSwitch.Proofs.Ascending
import WordSwitch.Proofs.Bytes
import WordSwitch.Proofs.Chunk.Alignment
import WordSwitch.Proofs.Chunk.Case
import WordSwitch.Proofs.Chunk.Cut
import WordSwitch.Proofs.Lexicon.Assertions
import WordSwitch.Proofs.Lexicon.Assignment
import WordSwitch.Proofs.Lexicon.Collision
import WordSwitch.Proofs.Lexicon.Fallback
import WordSwitch.Proofs.Lexicon.History
import WordSwitch.Proofs.Lexicon.Stored
import WordSwitch.Proofs.Program.Constants
import WordSwitch.Proofs.Program.Correctness
import WordSwitch.Proofs.Program.DefinitionText
import WordSwitch.Proofs.Program.Entry
import WordSwitch.Proofs.Program.Execution
import WordSwitch.Proofs.Program.FunctionText
import WordSwitch.Proofs.Program.Functions
import WordSwitch.Proofs.Program.Names
import WordSwitch.Proofs.Program.Naming
import WordSwitch.Proofs.Program.Operands
import WordSwitch.Proofs.Program.Phrases
import WordSwitch.Proofs.Program.Shape
import WordSwitch.Proofs.Program.Simulation
import WordSwitch.Proofs.Program.Terms
import WordSwitch.Proofs.Program.Text
import WordSwitch.Proofs.Program.TextProperties
import WordSwitch.Proofs.Program.Values
import WordSwitch.Proofs.Recognizer.Accepted
import WordSwitch.Proofs.Recognizer.Building
import WordSwitch.Proofs.Recognizer.Independence
import WordSwitch.Proofs.Recognizer.Lookup
import WordSwitch.Proofs.Recognizer.Shape
import WordSwitch.Proofs.Recognizer.Tries
import WordSwitch.Proofs.Source.Lexeme
import WordSwitch.Proofs.Source.Lexing
import WordSwitch.Proofs.Source.Phrase
import WordSwitch.Proofs.Source.Preprocess
import WordSwitch.Proofs.Source.Properties
import WordSwitch.Proofs.Source.Reading
import WordSwitch.Proofs.Source.Semantics
import WordSwitch.Proofs.Source.Syntax
import WordSwitch.Proofs.Trie.Advance
import WordSwitch.Proofs.Trie.Get
import WordSwitch.Proofs.Trie.Insertion
import WordSwitch.Proofs.Trie.Length
import WordSwitch.Proofs.Trie.Levels
import WordSwitch.Proofs.Trie.Order
import WordSwitch.Proofs.Trie.Paths
import WordSwitch.Proofs.Trie.Recut
import WordSwitch.Proofs.Trie.Shape
import WordSwitch.Recognizer.Basic
import WordSwitch.Recognizer.Export
import WordSwitch.Recognizer.Lookup
import WordSwitch.Recognizer.Report
import WordSwitch.Target
import WordSwitch.Text.Json
import WordSwitch.Text.Printable
import WordSwitch.Text.Quoted
import WordSwitch.Text.Utf8
import WordSwitch.Trie.Basic
import WordSwitch.Trie.Branches
import WordSwitch.Trie.Length
import WordSwitch.Trie.Levels
import WordSwitch.Trie.Nodes
import WordSwitch.Trie.Numbering
import WordSwitch.Trie.Recut
import WordSwitch.WordList.Line
import WordSwitch.WordList.Numeral
import WordSwitch.WordList.Reader
import WordSwitch.Proofs.Lexicon.Supply
import WordSwitch.Proofs.Trie.Map
import WordSwitch.Proofs.Outline.Decoding
import WordSwitch.Proofs.Outline.Faithful
import WordSwitch.Proofs.Command.Stages
import WordSwitch.Proofs.Source.Enumeration
import WordSwitch.Proofs.Source.Names
import WordSwitch.Proofs.WordList.Enumeration
import WordSwitch.Proofs.Program.DeclarationText
import WordSwitch.Proofs.Program.Declarations
import WordSwitch.Proofs.Program.Returned
import WordSwitch.Proofs.Program.Hygiene
import WordSwitch.Proofs.Trie.Reached
import WordSwitch.Proofs.Trie.Settled
import WordSwitch.Proofs.Arena.Basic
import WordSwitch.Proofs.Arena.Storage
import WordSwitch.Proofs.Arena.Reading
import WordSwitch.Proofs.Arena.Insertion
import WordSwitch.Proofs.Arena.Length
import WordSwitch.Proofs.Arena.Recut
import WordSwitch.Proofs.Arena.WellLinked
import WordSwitch.Proofs.Arena.Reached
import WordSwitch.Proofs.WordList.OwnLabels
import WordSwitch.Proofs.Command.Saving
import WordSwitch.Proofs.WordList.Signs
import WordSwitch.Proofs.Command.Writing
import WordSwitch.Proofs.Program.Form
import WordSwitch.Proofs.Command.Destinations
import WordSwitch.Proofs.Arena.Kept
import WordSwitch.Proofs.Arena.Settled
import WordSwitch.Proofs.Trie.Overtaking
import WordSwitch.Proofs.Trie.Leaves
import WordSwitch.Proofs.Arena.Rebuilt
import WordSwitch.Proofs.Recognizer.Collisions
import WordSwitch.Proofs.WordList.Padding
import WordSwitch.Proofs.WordList.Lines
import WordSwitch.Proofs.Program.Decision
import WordSwitch.Proofs.Chunk.Variants
import WordSwitch.Proofs.Chunk.Widths
import WordSwitch.Proofs.Trie.NodePaths
import WordSwitch.Proofs.Trie.Depth
import WordSwitch.Proofs.Arena.Walks
import WordSwitch.Proofs.Arena.Chunking
import WordSwitch.Proofs.Recognizer.Levels
