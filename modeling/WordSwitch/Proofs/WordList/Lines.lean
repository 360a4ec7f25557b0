import Mathlib.Data.List.Forall2
import WordSwitch.Proofs.WordList.Enumeration
import WordSwitch.Proofs.WordList.Padding

/-!
# Reading line by line

A line is refused for what it says, or because it declares a word for which the
lines before it leave no value.  Reading a text ends at the first line that is
refused, with its number, whatever comes behind it, and reports it unless the
value of that line overflows.  ASCII whitespace around lines changes nothing,
and blank lines between them change no more than the numbers of those behind.
-/

namespace WordSwitch

namespace Bytes

/-- What stands between the line feeds of a text. -/
def segments (text : Bytes) : List Bytes :=
  pieces (· == Byte.lineFeed) text

/-- A text with a carriage return in front of each line feed. -/
def withCarriageReturns (text : Bytes) : Bytes :=
  text.flatMap fun byte => if byte = Byte.lineFeed then [13, byte] else [byte]

/-- What stands between the line feeds are the lines, and perhaps nothing behind
the last of them. -/
theorem segments_eq_lines (text : Bytes) :
    text.segments = text.lines ∨ text.segments = text.lines ++ [[]] := by
  unfold segments lines completeLines
  rcases List.eq_nil_or_concat' (pieces (· == Byte.lineFeed) text) with
    nothing | ⟨complete, last, pieces_eq⟩
  · obtain ⟨first, others, pieces_eq⟩ :=
      exists_pieces_eq_cons (· == Byte.lineFeed) text
    cases nothing.symm.trans pieces_eq
  · rw [pieces_eq, List.getLast?_concat, List.dropLast_concat]
    cases last with
    | nil => exact Or.inr rfl
    | cons byte rest => exact Or.inl rfl

theorem segments_cons_lineFeed (text : Bytes) :
    segments (Byte.lineFeed :: text) = [] :: segments text :=
  rfl

theorem segments_cons_of_ne
    {byte : UInt8}
    (other : byte ≠ Byte.lineFeed)
    (text : Bytes) :
    segments (byte :: text) = extendFirst byte (segments text) := by
  rw [segments, pieces_cons, if_neg (by simpa using other), ← segments]

end Bytes

namespace Line

/-- Some bytes with ASCII whitespace behind them. -/
def PaddedBehind (bytes padded : Bytes) : Prop :=
  ∃ after : Bytes, after.IsBlank ∧ padded = bytes ++ after

theorem PaddedBehind.refl (bytes : Bytes) : PaddedBehind bytes bytes :=
  ⟨[], nofun, (List.append_nil bytes).symm⟩

theorem PaddedBehind.padded
    {bytes padded : Bytes}
    (pads : PaddedBehind bytes padded) :
    Padded bytes padded := by
  obtain ⟨after, blank, rfl⟩ := pads
  exact ⟨[], after, nofun, blank, rfl⟩

theorem PaddedBehind.extendFirst
    {pieces padded : List Bytes}
    (pads : List.Forall₂ PaddedBehind pieces padded)
    (byte : UInt8) :
    List.Forall₂ PaddedBehind (Bytes.extendFirst byte pieces)
      (Bytes.extendFirst byte padded) := by
  cases pads with
  | nil => exact .cons (.refl [byte]) .nil
  | cons first others =>
    obtain ⟨after, blank, rfl⟩ := first
    exact .cons ⟨after, blank, rfl⟩ others

/-- A carriage return in front of a line feed stands behind a line. -/
theorem paddedBehind_withCarriageReturns (text : Bytes) :
    List.Forall₂ PaddedBehind text.segments
      text.withCarriageReturns.segments := by
  induction text with
  | nil => exact .cons (.refl []) .nil
  | cons byte rest hypothesis =>
    rw [Bytes.withCarriageReturns, List.flatMap_cons,
      ← Bytes.withCarriageReturns]
    by_cases ends : byte = Byte.lineFeed
    · subst ends
      rw [if_pos rfl, Bytes.segments_cons_lineFeed]
      exact .cons ⟨[13], List.forall_mem_singleton.mpr rfl, rfl⟩ hypothesis
    · rw [if_neg ends, List.singleton_append,
        Bytes.segments_cons_of_ne ends, Bytes.segments_cons_of_ne ends]
      exact PaddedBehind.extendFirst hypothesis byte

/-! ## Lines that are refused -/

/-- Why a line is refused behind others: it cannot be read, or it declares a
word without a value although the largest value was given before. -/
inductive Refused (before : List Bytes) (line : Bytes) : Problem → Prop
  | unreadable
      {problem : Problem}
      (fails : parse line = .error problem) :
      Refused before line problem
  | exhausted
      {word : Bytes}
      {label : String}
      (declares : parse line = .ok (some (.entry word label none)))
      (given : Lexicon.highestValue (before.filterMap declared?) = maxValue) :
      Refused before line .valuesExhausted

/-- No line is refused behind those before it. -/
def Accepted (lines : List Bytes) : Prop :=
  ∀ before line problem, before ++ [line] <+: lines →
    ¬ Refused before line problem

theorem accepted_append_singleton {lines : List Bytes} {last : Bytes} :
    Accepted (lines ++ [last]) ↔
      Accepted lines ∧ ∀ problem, ¬ Refused lines last problem := by
  unfold Accepted
  simp only [List.prefix_concat_iff]
  constructor
  · intro accepted
    exact ⟨fun before line problem begins =>
        accepted before line problem (Or.inr begins),
      fun problem => accepted lines last problem (Or.inl rfl)⟩
  · rintro ⟨accepted, lastAccepted⟩ before line problem (whole | begins)
    · obtain ⟨rfl, same⟩ := List.append_inj' whole rfl
      obtain rfl := List.singleton_inj.mp same
      exact lastAccepted problem
    · exact accepted before line problem begins

/-- What lines declare is in range. -/
theorem inRange_of_mem_declared
    {lines : List Bytes}
    {declaration : Declaration}
    (listed : declaration ∈ lines.filterMap declared?) :
    declaration.InRange := by
  obtain ⟨line, _, declares⟩ := List.mem_filterMap.mp listed
  exact (parse_eq_ok_some_iff.mp (declared?_eq_some_iff.mp declares)).inRange

end Line

namespace WordListError

/-- An error with the number of its line changed. -/
def renumber (change : Nat → Nat) : WordListError → WordListError
  | line number problem => line (change number) problem
  | source failure => source failure

end WordListError

namespace Lexicon

/-! ## The first line that is refused -/

section

variable
  {before : List Bytes}
  {line : Bytes}

theorem readLine_eq_error_iff {problem : Line.Problem} :
    (after (before.filterMap Line.declared?)).readLine line =
        .error problem ↔
      Line.Refused before line problem := by
  unfold readLine
  constructor
  · intro fails
    rcases parsed : Line.parse line with _ | (_ | declaration)
    · rw [parsed] at fails
      cases fails
      exact .unreadable parsed
    · rw [parsed] at fails
      cases fails
    · simp only [parsed] at fails
      split at fails
      · cases fails
      · next dry =>
        cases fails
        rw [declare?_eq_none_iff fun _ => Line.inRange_of_mem_declared] at dry
        obtain ⟨⟨word, label, rfl⟩, given⟩ := dry
        exact .exhausted parsed given
  · rintro (fails | @⟨word, label, declares, given⟩)
    · rw [fails]
    · have dry := (declare?_eq_none_iff
        fun _ => Line.inRange_of_mem_declared).mpr ⟨⟨word, label, rfl⟩, given⟩
      simp only [declares, dry]

theorem eq_after_of_readLine
    {next : Lexicon}
    (read : (after (before.filterMap Line.declared?)).readLine line =
      .ok next) :
    next = after ((before ++ [line]).filterMap Line.declared?) := by
  unfold readLine at read
  rw [List.filterMap_append, List.filterMap_cons, List.filterMap_nil,
    Line.declared?]
  rcases parsed : Line.parse line with _ | (_ | declaration)
  · rw [parsed] at read
    cases read
  · rw [parsed] at read
    cases read
    simp
  · simp only [parsed] at read
    split at read
    · next declared =>
      cases read
      simp [declare, declared]
    · cases read

end

theorem readLines_append
    (lexicon : Lexicon)
    (number : Nat)
    (lines others : List Bytes) :
    lexicon.readLines number (lines ++ others) =
      (lexicon.readLines number lines).bind
        (·.readLines (number + lines.length) others) := by
  induction lines generalizing lexicon number with
  | nil => rfl
  | cons line rest hypothesis =>
    rw [List.cons_append, readLines, readLines]
    cases lexicon.readLine line with
    | error problem => rfl
    | ok next =>
      rw [List.length_cons, Nat.add_comm rest.length, ← Nat.add_assoc]
      exact hypothesis next (number + 1)

section

variable {lines : List Bytes}

theorem readLines_append_singleton (last : Bytes) :
    empty.readLines 1 (lines ++ [last]) =
      (empty.readLines 1 lines).bind fun reached =>
        (reached.readLine last).mapError
          (WordListError.line (lines.length + 1)) := by
  rw [readLines_append, Nat.add_comm]
  congr
  funext reached
  rw [readLines]
  cases reached.readLine last <;> rfl

/-- Reading succeeds exactly if no line is refused, and then what the lines
declare is followed. -/
theorem readLines_eq_ok_iff {lexicon : Lexicon} :
    empty.readLines 1 lines = .ok lexicon ↔
      Line.Accepted lines ∧
        lexicon = after (lines.filterMap Line.declared?) := by
  induction lines using List.reverseRecOn generalizing lexicon with
  | nil =>
    have accepted : Line.Accepted [] := by
      intro before line problem begins
      simp at begins
    exact ⟨fun read => ⟨accepted, (Except.ok.inj read).symm⟩,
      fun ⟨_, equal⟩ => equal ▸ rfl⟩
  | append_singleton lines last hypothesis =>
    have split : empty.readLines 1 (lines ++ [last]) = .ok lexicon ↔
        ∃ reached, empty.readLines 1 lines = .ok reached ∧
          reached.readLine last = .ok lexicon := by
      rw [readLines_append_singleton]
      cases empty.readLines 1 lines with
      | error error => simp [Except.bind]
      | ok reached =>
        cases step : reached.readLine last <;>
          simp [Except.bind, Except.mapError, step]
    rw [split, Line.accepted_append_singleton]
    simp only [hypothesis]
    constructor
    · rintro ⟨_, ⟨accepted, rfl⟩, step⟩
      refine ⟨⟨accepted, fun problem refused => ?_⟩, eq_after_of_readLine step⟩
      cases step.symm.trans (readLine_eq_error_iff.mpr refused)
    · rintro ⟨⟨accepted, lastAccepted⟩, rfl⟩
      refine ⟨_, ⟨accepted, rfl⟩, ?_⟩
      cases step : (after (lines.filterMap Line.declared?)).readLine last with
      | error problem =>
        exact absurd (readLine_eq_error_iff.mp step) (lastAccepted problem)
      | ok next => rw [eq_after_of_readLine step]

/-- Reading fails exactly if some line is refused, for the first one that is and
with its number. -/
theorem readLines_eq_error_iff {error : WordListError} :
    empty.readLines 1 lines = .error error ↔
      ∃ before line problem, before ++ [line] <+: lines ∧
        Line.Accepted before ∧ Line.Refused before line problem ∧
        error = .line (before.length + 1) problem := by
  induction lines using List.reverseRecOn with
  | nil => simp [readLines]
  | append_singleton lines last hypothesis =>
    have split : empty.readLines 1 (lines ++ [last]) = .error error ↔
        empty.readLines 1 lines = .error error ∨
        ∃ reached problem, empty.readLines 1 lines = .ok reached ∧
          reached.readLine last = .error problem ∧
          error = .line (lines.length + 1) problem := by
      rw [readLines_append_singleton]
      cases empty.readLines 1 lines with
      | error error => simp [Except.bind]
      | ok reached =>
        cases step : reached.readLine last <;>
          simp [Except.bind, Except.mapError, step, @eq_comm _ error]
    rw [split, hypothesis]
    simp only [List.prefix_concat_iff, readLines_eq_ok_iff]
    constructor
    · rintro (⟨before, line, problem, begins, refused⟩ |
        ⟨_, problem, ⟨accepted, rfl⟩, step, equal⟩)
      · exact ⟨before, line, problem, Or.inr begins, refused⟩
      · exact ⟨lines, last, problem, Or.inl rfl, accepted,
          readLine_eq_error_iff.mp step, equal⟩
    · rintro ⟨before, line, problem, whole | begins, accepted, refused, equal⟩
      · obtain ⟨rfl, same⟩ := List.append_inj' whole rfl
        obtain rfl := List.singleton_inj.mp same
        exact Or.inr ⟨_, problem, ⟨accepted, rfl⟩,
          readLine_eq_error_iff.mpr refused, equal⟩
      · exact Or.inl ⟨before, line, problem, begins, accepted, refused, equal⟩

end

/-- The first line that is refused is reported unless its value overflows. -/
theorem isReported_eq_false_iff_of_readLines
    {lines : List Bytes}
    {error : WordListError}
    (fails : empty.readLines 1 lines = .error error) :
    error.isReported = false ↔
      ∃ before line, before ++ [line] <+: lines ∧ Line.Accepted before ∧
        Line.Overflows line := by
  simp only [← Line.parse_eq_overflow_iff]
  constructor
  · intro unreported
    obtain ⟨before, line, problem, begins, accepted, refused, rfl⟩ :=
      readLines_eq_error_iff.mp fails
    obtain rfl := Line.Problem.isReported_eq_false_iff.mp unreported
    cases refused with
    | unreadable broken => exact ⟨before, line, begins, accepted, broken⟩
  · rintro ⟨before, line, begins, accepted, broken⟩
    have breaks := readLines_eq_error_iff.mpr
      ⟨before, line, _, begins, accepted, .unreadable broken, rfl⟩
    obtain rfl := Except.error.inj (breaks.symm.trans fails)
    rfl

/-! ## Texts that differ in ASCII whitespace -/

theorem ofBytes_eq_readLines_lines (text : Bytes) :
    ofBytes text = empty.readLines 1 text.lines := by
  have complete : (Source.ofBytes text).lines = text.lines := rfl
  rw [ofBytes, ofSource, complete]
  cases empty.readLines 1 text.lines <;> rfl

theorem readLine_of_isBlank
    (lexicon : Lexicon)
    {line : Bytes}
    (blank : line.IsBlank) :
    lexicon.readLine line = .ok lexicon := by
  rw [readLine, Line.parse_eq_ok_none_iff.mpr blank]

/-- Nothing behind the last line feed counts as a line. -/
theorem ofBytes_eq_readLines_segments (text : Bytes) :
    ofBytes text = empty.readLines 1 text.segments := by
  rw [ofBytes_eq_readLines_lines]
  rcases text.segments_eq_lines with same | more
  · rw [same]
  · rw [more, readLines_append_singleton]
    cases empty.readLines 1 text.lines with
    | error error => rfl
    | ok reached =>
      have unchanged := readLine_of_isBlank reached (List.forall_mem_nil _)
      rw [Except.bind, unchanged]
      rfl

theorem readLines_of_padded
    {lines padded : List Bytes}
    (pads : List.Forall₂ Line.Padded lines padded)
    (number : Nat)
    (lexicon : Lexicon) :
    lexicon.readLines number padded = lexicon.readLines number lines := by
  induction pads generalizing number lexicon with
  | nil => rfl
  | cons first _ hypothesis =>
    rw [readLines, readLines, readLine, readLine, first.parse_eq]
    simp only [hypothesis]

theorem ofBytes_of_padded
    {text padded : Bytes}
    (pads : List.Forall₂ Line.Padded text.segments padded.segments) :
    ofBytes padded = ofBytes text := by
  rw [ofBytes_eq_readLines_segments, ofBytes_eq_readLines_segments,
    readLines_of_padded pads]

end Lexicon

/-! ## Blank lines -/

/-- A line that was there before, or one that is inserted. -/
inductive EditedLine where
  | kept (line : Bytes)
  | inserted (line : Bytes)

namespace EditedLine

/-- The line as it was before, if it was there. -/
def before? : EditedLine → Option Bytes
  | kept line => some line
  | inserted _ => none

/-- The line as it is afterwards. -/
def after : EditedLine → Bytes
  | kept line => line
  | inserted line => line

/-- The number of lines that are inserted before the one which had a given
number of lines before it. -/
def insertedBefore : List EditedLine → (index : Nat) → Nat
  | [], _ => 0
  | inserted _ :: rest, index => insertedBefore rest index + 1
  | kept _ :: _, 0 => 0
  | kept _ :: rest, index + 1 => insertedBefore rest index

end EditedLine

namespace Lexicon

theorem number_le_of_readLines
    {lexicon : Lexicon}
    {lines : List Bytes}
    {number refused : Nat}
    {problem : Line.Problem}
    (fails : lexicon.readLines number lines = .error (.line refused problem)) :
    number ≤ refused := by
  induction lines generalizing lexicon number with
  | nil => cases fails
  | cons line rest hypothesis =>
    rw [readLines] at fails
    cases step : lexicon.readLine line with
    | error problem =>
      rw [step] at fails
      cases fails
      exact Nat.le_refl refused
    | ok next =>
      rw [step] at fails
      exact Nat.le_of_succ_le (hypothesis fails)

theorem mapError_renumber_congr
    {outcome : Except WordListError Lexicon}
    {change other : Nat → Nat}
    (same : ∀ refused problem, outcome = .error (.line refused problem) →
      change refused = other refused) :
    outcome.mapError (·.renumber change) =
      outcome.mapError (·.renumber other) := by
  cases outcome with
  | ok lexicon => rfl
  | error error =>
    cases error with
    | source failure => rfl
    | line refused problem =>
      rw [Except.mapError, Except.mapError, WordListError.renumber,
        WordListError.renumber, same refused problem rfl]

/-- Blank lines that are inserted change nothing but the numbers of the lines
behind them. -/
theorem readLines_edited
    {edited : List EditedLine}
    (blanks : ∀ line, .inserted line ∈ edited → line.IsBlank)
    (lexicon : Lexicon)
    (number shift : Nat) :
    lexicon.readLines (number + shift) (edited.map (·.after)) =
      (lexicon.readLines number (edited.filterMap (·.before?))).mapError
        (·.renumber fun refused => refused + shift +
          EditedLine.insertedBefore edited (refused - number)) := by
  induction edited generalizing lexicon number shift with
  | nil => rfl
  | cons first rest hypothesis =>
    have later := hypothesis
      fun line listed => blanks line (List.mem_cons_of_mem first listed)
    cases first with
    | inserted line =>
      have blank := blanks line List.mem_cons_self
      rw [List.map_cons, readLines, EditedLine.after,
        readLine_of_isBlank lexicon blank]
      refine (later lexicon number (shift + 1)).trans ?_
      refine mapError_renumber_congr fun refused _ _ => ?_
      rw [EditedLine.insertedBefore]
      omega
    | kept line =>
      have kept_first : (EditedLine.kept line :: rest).filterMap (·.before?) =
          line :: rest.filterMap (·.before?) := rfl
      rw [List.map_cons, readLines, EditedLine.after, kept_first, readLines]
      cases lexicon.readLine line with
      | error problem =>
        simp [Except.mapError, WordListError.renumber,
          EditedLine.insertedBefore]
      | ok next =>
        rw [Nat.add_right_comm]
        refine (later next (number + 1) shift).trans ?_
        refine mapError_renumber_congr fun refused problem fails => ?_
        have bound := number_le_of_readLines fails
        have behind : refused - number = refused - (number + 1) + 1 := by omega
        rw [behind, EditedLine.insertedBefore]

theorem ofBytes_edited
    {edited : List EditedLine}
    (blanks : ∀ line, .inserted line ∈ edited → line.IsBlank)
    {text other : Bytes}
    (before : text.segments = edited.filterMap (·.before?))
    (after : other.segments = edited.map (·.after)) :
    ofBytes other = (ofBytes text).mapError
      (·.renumber fun refused => refused +
        EditedLine.insertedBefore edited (refused - 1)) := by
  rw [ofBytes_eq_readLines_segments, ofBytes_eq_readLines_segments, before,
    after]
  exact readLines_edited blanks empty 1 0

/-! ## Texts -/

/-- Reading a text succeeds exactly if no line is refused, and otherwise it
fails for the first one that is, with its number and whatever comes behind it.
The failure is reported unless the value of that line overflows, which breaks
the reading off.  ASCII whitespace around lines and carriage returns in front of
line feeds change nothing, and blank lines change the numbers of those behind
them. -/
theorem ofBytes_by_lines (text : Bytes) :
    (∀ lexicon, ofBytes text = .ok lexicon ↔
      Line.Accepted text.lines ∧
        lexicon = after (text.lines.filterMap Line.declared?)) ∧
    (∀ error, ofBytes text = .error error ↔
      ∃ before line problem, before ++ [line] <+: text.lines ∧
        Line.Accepted before ∧ Line.Refused before line problem ∧
        error = .line (before.length + 1) problem) ∧
    (∀ error, ofBytes text = .error error →
      (error.isReported = false ↔
        ∃ before line, before ++ [line] <+: text.lines ∧
          Line.Accepted before ∧ Line.Overflows line)) ∧
    (∀ number problem, ofBytes text = .error (.line number problem) →
      ∀ other : Bytes, other.lines.take number = text.lines.take number →
        ofBytes other = .error (.line number problem)) ∧
    (∀ padded : Bytes,
      List.Forall₂ Line.Padded text.segments padded.segments →
        ofBytes padded = ofBytes text) ∧
    ofBytes text.withCarriageReturns = ofBytes text ∧
    ∀ (edited : List EditedLine) (other : Bytes),
      (∀ line, .inserted line ∈ edited → line.IsBlank) →
      text.segments = edited.filterMap (·.before?) →
      other.segments = edited.map (·.after) →
        ofBytes other = (ofBytes text).mapError
          (·.renumber fun number => number +
            EditedLine.insertedBefore edited (number - 1)) := by
  refine ⟨?_, ?_, ?_, ?_, fun _ => ofBytes_of_padded, ?_, ?_⟩
  · intro lexicon
    rw [ofBytes_eq_readLines_lines]
    exact readLines_eq_ok_iff
  · intro error
    rw [ofBytes_eq_readLines_lines]
    exact readLines_eq_error_iff
  · intro error fails
    rw [ofBytes_eq_readLines_lines] at fails
    exact isReported_eq_false_iff_of_readLines fails
  · intro number problem fails other same
    rw [ofBytes_eq_readLines_lines] at fails ⊢
    obtain ⟨before, line, _, begins, accepted, refused, equal⟩ :=
      readLines_eq_error_iff.mp fails
    cases equal
    refine readLines_eq_error_iff.mpr
      ⟨before, line, problem, ?_, accepted, refused, rfl⟩
    have start := List.prefix_iff_eq_take.mp begins
    rw [List.length_append, List.length_singleton, ← same] at start
    rw [start]
    exact List.take_prefix _ other.lines
  · exact ofBytes_of_padded
      ((Line.paddedBehind_withCarriageReturns text).imp
        fun _ _ pads => pads.padded)
  · exact fun _ _ blanks => ofBytes_edited blanks

/-- A third line of which the value overflows gives neither a lexicon nor a
report. -/
theorem not_isReported_thirdLine :
    let text := Bytes.ofString "red\n\ntop = -0x-8000000000000000\nblue\n"
    (∀ lexicon, ofBytes text ≠ .ok lexicon) ∧
      ∀ error, ofBytes text = .error error → error.isReported = false := by
  have broken :
      ofBytes (Bytes.ofString
          "red\n\ntop = -0x-8000000000000000\nblue\n") =
        .error (.line 3 .negationOverflow) := by
    rw [Bytes.ofString_eq]
    rfl
  refine ⟨fun lexicon read => ?_, fun error fails => ?_⟩
  · cases broken.symm.trans read
  · cases broken.symm.trans fails
    rfl

/-- A blank line in front of a refused one moves its number, and nothing else
does. -/
example :
    ofBytes [97, 10, 61, 61] = .error (.line 2 .misplacedMark) ∧
      ofBytes [97, 13, 10, 32, 10, 9, 61, 61, 10, 126] =
        .error (.line 3 .misplacedMark) := by
  decide

end Lexicon

end WordSwitch
