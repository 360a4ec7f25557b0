import WordSwitch.Proofs.Program.Execution
import WordSwitch.Proofs.Source.Lexing
import WordSwitch.Proofs.Trie.Levels

/-!
# The shape of generated code

The labels in generated code are those of the words and of the fallback.  Each
switch reads a width that a single read supports within the length of the
words, its constants have that width, and no two of them are the same chunk.
-/

namespace WordSwitch

open Source Program

namespace Program
namespace Code

/-- The chunks of the constants that label the statements of some code, but not
of those in its switches. -/
def constants : Code → List Bytes
  | nil => []
  | constant chunk next => chunk :: next.constants
  | unused next | answer _ next | leave next | switch _ _ next =>
    next.constants

/-- The switches in some code and in the bodies of its switches. -/
def switches : Code → List (Subject × Code)
  | nil => []
  | switch subject body next =>
    (subject, body) :: body.switches ++ next.switches
  | constant _ next | unused next | answer _ next | leave next =>
    next.switches

/-- The widths that all switches in some code read. -/
def widths (code : Code) : List Nat :=
  code.switches.map (·.1.width)

theorem widths_switch (subject : Subject) (body next : Code) :
    (switch subject body next).widths =
      subject.width :: body.widths ++ next.widths := by
  simp [widths, switches]

/-- No statement is run on into a constant.  Control may come from the statement
before unless that one always jumps. -/
def NoFallThrough : (mayArrive : Bool) → Code → Prop
  | _, nil => True
  | _, unused next => next.NoFallThrough true
  | mayArrive, constant _ next => mayArrive = false ∧ next.NoFallThrough false
  | _, answer _ next | _, leave next => next.NoFallThrough false
  | _, switch _ body next =>
    body.NoFallThrough false ∧ next.NoFallThrough true

end Code

/-- A switch of the function for words of some length. -/
structure SwitchFits (length : Nat) (subject : Subject) (body : Code) :
    Prop where
  readable : subject.width ∈ Chunk.readableWidths
  within : subject.offset + subject.width ≤ length
  distinct : body.constants.Nodup

/-- Code of the function for words of some length, in the body of a switch that
reads `width` bytes. -/
def Code.Fits (length : Nat) : (width : Nat) → Code → Prop
  | _, nil => True
  | width, constant chunk next =>
    (chunk ≠ [] ∧ chunk.length = width) ∧ next.Fits length width
  | width, answer label next => IsName label ∧ next.Fits length width
  | width, unused next | width, leave next => next.Fits length width
  | width, switch subject body next =>
    SwitchFits length subject body ∧ body.Fits length subject.width ∧
      next.Fits length width

namespace Code

theorem constants_labelled (chunks : List Bytes) (code : Code) :
    (labelled chunks code).constants = chunks ++ code.constants := by
  induction chunks with
  | nil => rfl
  | cons chunk rest hypothesis =>
    rw [labelled, List.foldr_cons, ← labelled, constants, hypothesis]
    rfl

theorem widths_labelled (chunks : List Bytes) (code : Code) :
    (labelled chunks code).widths = code.widths := by
  induction chunks with
  | nil => rfl
  | cons chunk rest hypothesis => exact hypothesis

theorem noFallThrough_labelled
    {chunks : List Bytes}
    {code : Code}
    (ends : code.NoFallThrough false) :
    (labelled chunks code).NoFallThrough false := by
  induction chunks with
  | nil => exact ends
  | cons chunk rest hypothesis => exact ⟨rfl, hypothesis⟩

theorem fits_labelled
    {length width : Nat}
    {chunks : List Bytes}
    {code : Code}
    (chunks_fit : ∀ chunk ∈ chunks, chunk ≠ [] ∧ chunk.length = width)
    (code_fits : code.Fits length width) :
    (labelled chunks code).Fits length width := by
  induction chunks with
  | nil => exact code_fits
  | cons chunk rest hypothesis =>
    rw [List.forall_mem_cons] at chunks_fit
    exact ⟨chunks_fit.1, hypothesis chunks_fit.2⟩

end Code
end Program

/-- A limit of eight bytes leaves the widths that a single read supports. -/
theorem mem_readableWidths
    {limit width : Nat}
    (limit_le : limit ≤ 8)
    (readable : Chunk.ReadableWithin limit width) :
    width ∈ Chunk.readableWidths := by
  obtain ⟨width_le, exponent, rfl⟩ := readable
  have exponent_lt : exponent < 4 := by
    apply (Nat.pow_lt_pow_iff_right Nat.one_lt_two).mp
    omega
  have every : ∀ other < 4, 2 ^ other ∈ Chunk.readableWidths := by decide
  exact every exponent exponent_lt

namespace Branches

variable {ι : Type}

/-- The constants in the body of a switch are those of its edges. -/
theorem constants_code
    (ignoreCase : Bool)
    (comparison : Chunk.Comparison)
    (offset width : Nat)
    (branches : Branches ι) :
    (branches.code ignoreCase comparison offset width).constants =
      branches.chunks.flatMap (constants comparison) := by
  induction branches with
  | nil => rfl
  | cons chunk tag terminal below rest _ rest_constants =>
    rw [code, Code.constants_labelled, chunks, List.flatMap_cons,
      ← rest_constants]
    congr 1
    split
    · cases terminal <;> rfl
    · rfl

/-- Every arm of a switch returns or leaves the switch. -/
theorem noFallThrough_code
    (ignoreCase : Bool)
    (comparison : Chunk.Comparison)
    (offset width : Nat)
    (branches : Branches ι) :
    (branches.code ignoreCase comparison offset width).NoFallThrough false := by
  induction branches generalizing comparison offset width with
  | nil => trivial
  | cons chunk tag terminal below rest below_ends rest_ends =>
    have later := rest_ends comparison offset width
    rw [code]
    apply Code.noFallThrough_labelled
    split
    · cases terminal with
      | none => exact later
      | some member => exact later
    · exact ⟨below_ends _ _ _, later⟩

/-- The switch for some aligned edges. -/
theorem switchFits
    {ignoreCase : Bool}
    {limit length : Nat}
    {branches : Branches ι}
    (one : branches.OfOneLength length)
    (aligned : Chunk.Aligned ignoreCase limit branches.chunks)
    (edges : branches.isNil = false)
    (limit_le : limit ≤ 8)
    {offset total : Nat}
    (within : offset + length ≤ total) :
    SwitchFits total (subject ignoreCase offset branches.chunks)
      (branches.code ignoreCase (.ofKeys ignoreCase branches.chunks) offset
        (readWidth branches.chunks)) := by
  obtain ⟨width, readable, width_eq⟩ := aligned.oneWidth
  have width_le := readWidth_le one edges
  refine ⟨?_, ?_, ?_⟩
  · obtain ⟨chunk, listed⟩ := List.exists_mem_of_ne_nil _ (chunks_ne_nil edges)
    rw [subject, ← length_eq_readWidth aligned listed, width_eq chunk listed]
    exact mem_readableWidths limit_le readable
  · simp only [subject]
    omega
  · rw [constants_code]
    exact nodup_flatMap_constants aligned

/-- The body of a switch. -/
theorem fits_code
    {ignoreCase : Bool}
    {limit length : Nat}
    {branches : Branches ι}
    (one : branches.OfOneLength length)
    (nodes : branches.EveryNode (Chunk.Aligned ignoreCase limit))
    (named : ∀ word member, (word, member) ∈ branches.words →
      IsName member.label)
    (limit_le : limit ≤ 8)
    (comparison : Chunk.Comparison)
    {offset width total : Nat}
    (width_eq : ∀ chunk ∈ branches.chunks, chunk.length = width)
    (within : offset + length ≤ total) :
    (branches.code ignoreCase comparison offset width).Fits total width := by
  induction branches generalizing length comparison offset width with
  | nil => trivial
  | cons chunk tag terminal below rest below_fits rest_fits =>
    obtain ⟨aligned, belowNodes, restNodes⟩ := nodes
    have chunk_width : chunk.length = width :=
      width_eq chunk List.mem_cons_self
    have chunk_le : chunk.length ≤ length := one.length_le List.mem_cons_self
    have later := rest_fits one.rest restNodes
      (fun word member inRest =>
        named word member (mem_words_cons.mpr (Or.inr (Or.inr inRest))))
      comparison
      (fun other listed => width_eq other (List.mem_cons_of_mem chunk listed))
      within
    rw [code]
    apply Code.fits_labelled
    · intro constant listed
      have constant_length := length_of_mem_constants listed
      refine ⟨?_, constant_length.trans chunk_width⟩
      rintro rfl
      exact one.nonempty.1 (List.length_eq_zero_iff.mp constant_length.symm)
    · cases ends : below.isNil with
      | true =>
        cases terminal with
        | none => exact later
        | some member =>
          have label_named := named chunk member
            (mem_words_cons.mpr (Or.inl ⟨rfl, rfl⟩))
          exact ⟨label_named, later⟩
      | false =>
        have belowWithin : offset + width + (length - chunk.length) ≤ total := by
          omega
        have deeper := below_fits one.below belowNodes
          (fun tail member inBelow => named (chunk ++ tail) member
            (mem_words_cons.mpr (Or.inr (Or.inl ⟨tail, rfl, inBelow⟩))))
          (.ofKeys ignoreCase below.chunks)
          (fun _ listed => length_eq_readWidth aligned listed) belowWithin
        exact ⟨switchFits one.below aligned ends limit_le belowWithin, deeper, later⟩

/-- The chunks of a node have the width that it reads, unless they are further
down. -/
theorem exists_length_eq_iff
    {ignoreCase : Bool}
    {limit width : Nat}
    {branches : Branches ι}
    (aligned : Chunk.Aligned ignoreCase limit branches.chunks)
    (edges : branches.isNil = false) :
    (∃ chunk ∈ branches.allChunks, chunk.length = width) ↔
      width = readWidth branches.chunks ∨
        ∃ chunk ∈ branches.nextLevel.allChunks, chunk.length = width := by
  have here : (∃ chunk ∈ branches.chunks, chunk.length = width) ↔
      width = readWidth branches.chunks := by
    constructor
    · rintro ⟨chunk, listed, rfl⟩
      exact length_eq_readWidth aligned listed
    · rintro rfl
      obtain ⟨chunk, listed⟩ :=
        List.exists_mem_of_ne_nil _ (chunks_ne_nil edges)
      exact ⟨chunk, listed, length_eq_readWidth aligned listed⟩
  rw [← here, ← exists_or]
  apply exists_congr
  intro chunk
  rw [mem_allChunks_iff, or_and_right]

/-- The switches in the body of a switch read the widths of the chunks further
down. -/
theorem mem_widths_code
    {ignoreCase : Bool}
    {limit : Nat}
    {branches : Branches ι}
    (nodes : branches.EveryNode (Chunk.Aligned ignoreCase limit))
    (comparison : Chunk.Comparison)
    {offset width read : Nat} :
    width ∈ (branches.code ignoreCase comparison offset read).widths ↔
      ∃ chunk ∈ branches.nextLevel.allChunks, chunk.length = width := by
  induction branches generalizing comparison offset read with
  | nil => simp [code, Code.widths, Code.switches, nextLevel, allChunks]
  | cons chunk tag terminal below rest below_iff rest_iff =>
    obtain ⟨aligned, belowNodes, restNodes⟩ := nodes
    rw [code, Code.widths_labelled]
    simp only [nextLevel, mem_allChunks_append, or_and_right, exists_or]
    have later := @rest_iff restNodes comparison offset read
    rw [← later]
    cases ends : below.isNil with
    | true =>
      rw [isNil_eq_true_iff] at ends
      subst ends
      cases terminal <;>
        simp [Code.answerIfSome, Code.widths, Code.switches, allChunks]
    | false =>
      rw [exists_length_eq_iff aligned ends]
      simp only [Bool.false_eq_true, if_false, Code.widths_switch,
        List.cons_append, List.mem_cons, List.mem_append, below_iff belowNodes,
        subject, or_assoc]
      rfl

end Branches

namespace Trie

/-- The switches of the function for a length read the widths of the chunks. -/
theorem WellCut.mem_widths_code
    {ignoreCase : Bool}
    {limit length width : Nat}
    {trie : Trie}
    (cut : trie.WellCut ignoreCase limit length)
    (fallback : String) :
    width ∈ (trie.code ignoreCase fallback).widths ↔
      width ∈ trie.levelWidths.flatten := by
  unfold Trie.code levelWidths
  rw [Branches.mem_levelWidths]
  cases ends : trie.branches.isNil with
  | true =>
    rw [Branches.isNil_eq_true_iff] at ends
    simp [ends, Code.widths, Code.switches, Branches.allChunks]
  | false =>
    rw [Branches.exists_length_eq_iff cut.aligned ends]
    have none_after : (Code.answer fallback .nil).widths = [] := rfl
    simp only [Bool.false_eq_true, if_false, Code.widths_switch, none_after,
      List.mem_cons, List.append_nil, Branches.mem_widths_code cut.nodes,
      subject]

theorem noFallThrough_code
    (ignoreCase : Bool)
    (fallback : String)
    (trie : Trie) :
    (trie.code ignoreCase fallback).NoFallThrough false := by
  unfold Trie.code
  split
  · trivial
  · exact ⟨Branches.noFallThrough_code _ _ _ _ trie.branches, trivial⟩

/-- The function for a length. -/
theorem WellCut.fits_code
    {ignoreCase : Bool}
    {limit length : Nat}
    {trie : Trie}
    (cut : trie.WellCut ignoreCase limit length)
    (named : ∀ word member, (word, member) ∈ trie.words →
      IsName member.label)
    (limit_le : limit ≤ 8)
    {fallback : String}
    (fallback_named : IsName fallback) :
    (trie.code ignoreCase fallback).Fits length 0 := by
  unfold Trie.code
  cases ends : trie.branches.isNil with
  | true =>
    refine ⟨?_, trivial⟩
    cases terminal_eq : trie.terminal with
    | none => exact fallback_named
    | some member =>
      exact named [] member (mem_words.mpr (Or.inl ⟨rfl, terminal_eq⟩))
  | false =>
    have within : 0 + length ≤ length := by omega
    have body := Branches.fits_code cut.one.branches cut.nodes
      (fun word member inside => named word member
        (mem_words.mpr (Or.inr inside)))
      limit_le (.ofKeys ignoreCase trie.branches.chunks)
      (fun _ listed => length_eq_readWidth cut.aligned listed) within
    have fits := Branches.switchFits cut.one.branches cut.aligned ends limit_le
      within
    exact ⟨fits, body, fallback_named, trivial⟩

end Trie

namespace Program

/-- Definitions that are read as they are meant.  The functions that read
several bytes at once are those for some given widths. -/
structure Definitions.Fit
    (wideWidths : List Nat)
    (definitions : Program.Definitions) :
    Prop where
  lengths : (definitions.functions.map (·.1)).Nodup
  fallback : IsName definitions.fallback
  fits : ∀ length code, (length, code) ∈ definitions.functions →
    code.Fits length 0
  noFallThrough : ∀ length code, (length, code) ∈ definitions.functions →
    code.NoFallThrough false
  nodup : wideWidths.Nodup
  wideWidths : ∀ width, width ∈ wideWidths ↔
    1 < width ∧ ∃ length code, (length, code) ∈ definitions.functions ∧
      width ∈ code.widths

theorem Code.Fits.of_mem_constants
    {length width : Nat}
    {code : Code}
    (fits : code.Fits length width)
    {chunk : Bytes}
    (listed : chunk ∈ code.constants) :
    chunk ≠ [] ∧ chunk.length = width := by
  induction code with
  | nil => cases listed
  | unused next hypothesis => exact hypothesis fits listed
  | leave next hypothesis => exact hypothesis fits listed
  | answer label next hypothesis => exact hypothesis fits.2 listed
  | switch subject body next _ hypothesis => exact hypothesis fits.2.2 listed
  | constant other next hypothesis =>
    rcases List.mem_cons.mp listed with rfl | inNext
    · exact fits.1
    · exact hypothesis fits.2 inNext

/-- No constants stand outside of all switches. -/
theorem Code.Fits.constants_eq_nil
    {length : Nat}
    {code : Code}
    (fits : code.Fits length 0) :
    code.constants = [] := by
  rw [List.eq_nil_iff_forall_not_mem]
  intro chunk listed
  obtain ⟨nonempty, length_eq⟩ := fits.of_mem_constants listed
  exact nonempty (List.length_eq_zero_iff.mp length_eq)

theorem Code.Fits.of_mem_switches
    {length width : Nat}
    {code : Code}
    (fits : code.Fits length width)
    {subject : Subject}
    {body : Code}
    (listed : (subject, body) ∈ code.switches) :
    SwitchFits length subject body ∧ body.Fits length subject.width := by
  induction code generalizing width with
  | nil => cases listed
  | unused next hypothesis => exact hypothesis fits listed
  | leave next hypothesis => exact hypothesis fits listed
  | constant chunk next hypothesis => exact hypothesis fits.2 listed
  | answer label next hypothesis => exact hypothesis fits.2 listed
  | switch other otherBody next body_fits next_fits =>
    rw [switches, List.cons_append, List.mem_cons, List.mem_append] at listed
    rcases listed with equal | inBody | inNext
    · obtain ⟨rfl, rfl⟩ := Prod.mk.inj equal
      exact ⟨fits.1, fits.2.1⟩
    · exact body_fits fits.2.1 inBody
    · exact next_fits fits.2.2 inNext

theorem Code.Fits.readable_of_mem_widths
    {length width read : Nat}
    {code : Code}
    (fits : code.Fits length width)
    (present : read ∈ code.widths) :
    read ∈ Chunk.readableWidths := by
  obtain ⟨⟨subject, body⟩, listed, rfl⟩ := List.mem_map.mp present
  exact (fits.of_mem_switches listed).1.readable

/-- The widths that several bytes at once are read with. -/
theorem Definitions.Fit.mem_of_wide
    {wideWidths : List Nat}
    {definitions : Program.Definitions}
    (fit : definitions.Fit wideWidths)
    {width : Nat}
    (listed : width ∈ wideWidths) :
    width ∈ [2, 4, 8] := by
  obtain ⟨wide, length, code, inFunctions, present⟩ :=
    (fit.wideWidths width).mp listed
  have readable := (fit.fits length code inFunctions).readable_of_mem_widths
    present
  have every : ∀ other ∈ Chunk.readableWidths, 1 < other →
      other ∈ [2, 4, 8] := by
    decide
  exact every width readable wide

end Program

namespace Lexicon

theorem limit_le_of_recognizer
    {lexicon : Lexicon}
    {config : RecognizerConfig}
    {recognizer : Recognizer}
    (built : lexicon.recognizer config = .ok recognizer) :
    config.widthLimit ≤ 8 := by
  have readable := (recognizer_eq_ok_iff.mp built).1
  unfold RecognizerConfig.widthLimit
  split
  · exact Chunk.le_of_mem_readableWidths readable
  · decide

/-- The definitions for a recognizer. -/
theorem Builds.fit_definitions
    {lexicon : Lexicon}
    {config : RecognizerConfig}
    {recognizer : Recognizer}
    (builds : lexicon.Builds config recognizer)
    (limit_le : config.widthLimit ≤ 8)
    (named : ∀ entry ∈ lexicon.entries, IsName entry.label)
    (fallback_named : IsName lexicon.fallback.label) :
    recognizer.definitions.Fit recognizer.wideWidths := by
  have mem_functions : ∀ length code,
      (length, code) ∈ recognizer.definitions.functions ↔
        ∃ trie, (length, trie) ∈ recognizer.tries ∧
          trie.code config.ignoreCase lexicon.fallback.label = code := by
    intro length code
    simp [Recognizer.definitions, builds.ignoreCase_eq, builds.fallback_eq]
  refine ⟨?_, ?_, ?_, ?_, nodup_ascending _, ?_⟩
  · have same_lengths : recognizer.definitions.functions.map (·.1) =
        recognizer.tries.map (·.1) := by
      simp [Recognizer.definitions]
    rw [same_lengths]
    exact builds.nodup_keys
  · simp only [Recognizer.definitions, builds.fallback_eq]
    exact fallback_named
  · intro length code listed
    obtain ⟨trie, inTries, rfl⟩ := (mem_functions length code).mp listed
    apply (builds.wellCut length trie inTries).fits_code _ limit_le
      fallback_named
    intro word member present
    obtain ⟨_, entry, inEntries, _, rfl⟩ :=
      (builds.mem_words length trie inTries word member).mp present
    exact named entry inEntries
  · intro length code listed
    obtain ⟨trie, _, rfl⟩ := (mem_functions length code).mp listed
    exact trie.noFallThrough_code config.ignoreCase lexicon.fallback.label
  · intro width
    simp only [Recognizer.wideWidths, mem_ascending, List.mem_filter,
      List.mem_flatMap, decide_eq_true_eq, and_comm (b := 1 < width)]
    apply and_congr_right
    intro _
    constructor
    · rintro ⟨⟨length, trie⟩, inTries, present⟩
      exact ⟨length, _, (mem_functions length _).mpr ⟨trie, inTries, rfl⟩,
        ((builds.wellCut length trie inTries).mem_widths_code _).mpr present⟩
    · rintro ⟨length, code, listed, present⟩
      obtain ⟨trie, inTries, rfl⟩ := (mem_functions length code).mp listed
      exact ⟨(length, trie), inTries,
        ((builds.wellCut length trie inTries).mem_widths_code _).mp present⟩

end Lexicon

end WordSwitch
