import Mathlib.Data.List.Basic
import WordSwitch.Command.Run
import WordSwitch.Proofs.Bytes

/-!
# The stages of generating code

Before anything is printed or saved, a run of the generator passes some stages
in order.  Each has its own way to fail, given what the stages before it leave
behind.  A run in which stages fail ends with the failure of the first of them
and leaves everything as it was.  It reports that failure unless the word list
could not be read because a value overflowed.
-/

namespace WordSwitch
namespace Command

/-- What has to succeed before anything is printed or saved. -/
inductive Stage where
  /-- The language is known. -/
  | language
  /-- The chunk width is one that is read at once. -/
  | width
  /-- The names are identifiers. -/
  | names
  /-- An outline has no header. -/
  | header
  /-- The word list can be opened. -/
  | opening
  /-- The word list can be read. -/
  | reading
  /-- A name and a value are left for the counter. -/
  | counter
  /-- A recognizer can be built. -/
  | building
  /-- The code can be written down. -/
  | writing
deriving DecidableEq, Repr

namespace Stage

/-- The place in the order, zero for the first. -/
def rank : Stage → Nat
  | language => 0
  | width => 1
  | names => 2
  | header => 3
  | opening => 4
  | reading => 5
  | counter => 6
  | building => 7
  | writing => 8

theorem rank_injective {first second : Stage}
    (equal : first.rank = second.rank) :
    first = second := by
  revert equal
  cases first <;> cases second <;> decide

end Stage

section

variable (options : GenerateOptions) (input : Except FileFailure Source)

/-- A stage fails, with what it reports.  A stage that works on what another
leaves behind fails only where that is there. -/
inductive Fails : Stage → Failure → Prop
  | language {error : RequestError}
      (unknown : Language.ofName options.language = .error error) :
      Fails .language (.request error)
  | width {error : RecognizerError}
      (unreadable : options.recognizer.check = .error error) :
      Fails .width (.recognizer error)
  | names {error : RequestError}
      (invalid : options.code.check = .error error) :
      Fails .names (.request error)
  | header
      (isOutline : Language.ofName options.language = .ok .outline)
      (isSplit : options.code.isSplit = true) :
      Fails .header (.request .splitOutline)
  | opening {cause : FileFailure}
      (closed : input = .error cause) :
      Fails .opening (.opening options.input cause)
  | reading {source : Source} {error : WordListError}
      (opened : input = .ok source)
      (refused : Lexicon.ofSource source = .error error) :
      Fails .reading (.reading options.input error)
  | counter {source : Source} {lexicon : Lexicon} {error : RequestError}
      (opened : input = .ok source)
      (read : Lexicon.ofSource source = .ok lexicon)
      (refused : options.code.checkAgainst lexicon = .error error) :
      Fails .counter (.request error)
  | building {source : Source} {lexicon : Lexicon} {error : RecognizerError}
      (opened : input = .ok source)
      (read : Lexicon.ofSource source = .ok lexicon)
      (refused : lexicon.recognizer options.recognizer = .error error) :
      Fails .building (.recognizer error)
  | writing
      {source : Source}
      {lexicon : Lexicon}
      {recognizer : Recognizer}
      (isCode : Language.ofName options.language = .ok .code)
      (opened : input = .ok source)
      (read : Lexicon.ofSource source = .ok lexicon)
      (built : lexicon.recognizer options.recognizer = .ok recognizer)
      (unwritten : Program.units? options.code recognizer lexicon = none) :
      Fails .writing .generating

/-- A stage fails, and none before it does. -/
structure FailsFirst (stage : Stage) (failure : Failure) : Prop where
  fails : Fails options input stage failure
  first : ∀ other cause, Fails options input other cause →
    stage.rank ≤ other.rank

end

section

variable {options : GenerateOptions} {input : Except FileFailure Source}

/-- A stage fails in one way. -/
theorem Fails.unique
    {stage : Stage}
    {first second : Failure}
    (first_fails : Fails options input stage first)
    (second_fails : Fails options input stage second) :
    first = second := by
  cases first_fails <;> cases second_fails <;> grind

/-- There is one first failure. -/
theorem FailsFirst.unique
    {stage other : Stage}
    {failure cause : Failure}
    (fails : FailsFirst options input stage failure)
    (other_fails : FailsFirst options input other cause) :
    failure = cause := by
  have same : stage = other := Stage.rank_injective (Nat.le_antisymm
    (fails.first other cause other_fails.fails)
    (other_fails.first stage failure fails.fails))
  subst same
  exact fails.fails.unique other_fails.fails

theorem not_fails_language
    {language : Language}
    (known : Language.ofName options.language = .ok language)
    (cause : Failure) :
    ¬ Fails options input .language cause := by
  intro fails
  cases fails with
  | language unknown => simp [known] at unknown

theorem not_fails_width
    (readable : options.recognizer.check = .ok ())
    (cause : Failure) :
    ¬ Fails options input .width cause := by
  intro fails
  cases fails with
  | width unreadable => simp [readable] at unreadable

theorem not_fails_names
    (valid : options.code.check = .ok ())
    (cause : Failure) :
    ¬ Fails options input .names cause := by
  intro fails
  cases fails with
  | names invalid => simp [valid] at invalid

theorem not_fails_opening
    {source : Source}
    (cause : Failure) :
    ¬ Fails options (.ok source) .opening cause := by
  intro fails
  cases fails with
  | opening closed => cases closed

theorem not_fails_reading
    {source : Source}
    {lexicon : Lexicon}
    (read : Lexicon.ofSource source = .ok lexicon)
    (cause : Failure) :
    ¬ Fails options (.ok source) .reading cause := by
  intro fails
  cases fails with
  | reading opened refused =>
    obtain rfl := Except.ok.inj opened
    simp [read] at refused

theorem not_fails_counter
    {source : Source}
    {lexicon : Lexicon}
    (read : Lexicon.ofSource source = .ok lexicon)
    (countable : options.code.checkAgainst lexicon = .ok ())
    (cause : Failure) :
    ¬ Fails options (.ok source) .counter cause := by
  intro fails
  cases fails with
  | counter opened again refused =>
    obtain rfl := Except.ok.inj opened
    obtain rfl := Except.ok.inj (read.symm.trans again)
    simp [countable] at refused

theorem not_fails_building
    {source : Source}
    {lexicon : Lexicon}
    {recognizer : Recognizer}
    (read : Lexicon.ofSource source = .ok lexicon)
    (built : lexicon.recognizer options.recognizer = .ok recognizer)
    (cause : Failure) :
    ¬ Fails options (.ok source) .building cause := by
  intro fails
  cases fails with
  | building opened again refused =>
    obtain rfl := Except.ok.inj opened
    obtain rfl := Except.ok.inj (read.symm.trans again)
    simp [built] at refused

/-- A stage that does not fail is passed: whatever fails then is a later
stage. -/
theorem Fails.rank_le_of_passes
    {stage : Stage}
    (next : Stage)
    (reached : ∀ other cause, Fails options input other cause →
      stage.rank ≤ other.rank)
    (passes : ∀ cause, ¬ Fails options input stage cause)
    (follows : next.rank = stage.rank + 1) :
    ∀ other cause, Fails options input other cause →
      next.rank ≤ other.rank := by
  intro other cause fails
  rw [follows]
  refine Nat.lt_of_le_of_ne (reached other cause fails) fun same => ?_
  obtain rfl := Stage.rank_injective same
  exact passes cause fails

end

section

variable (options : GenerateOptions) (input : Except FileFailure Source)

/-- The checks made without a word list end with the first of their failures,
or none of them fails. -/
theorem target_outcome :
    (∃ stage failure, FailsFirst options input stage failure ∧
      options.target = .error failure) ∨
    (∀ stage failure, Fails options input stage failure →
      Stage.opening.rank ≤ stage.rank) ∧
    options.target = .ok
      (match Language.ofName options.language with
        | .ok .code => .code options.code
        | _ => .outline) := by
  have atLanguage : ∀ other cause, Fails options input other cause →
      Stage.language.rank ≤ other.rank := fun _ _ _ => Nat.zero_le _
  cases known : Language.ofName options.language with
  | error error =>
    refine .inl ⟨.language, _, ⟨.language known, atLanguage⟩, ?_⟩
    simp [GenerateOptions.target, known, Except.mapError, bind, Except.bind]
  | ok language =>
    have atWidth := Fails.rank_le_of_passes .width atLanguage
      (not_fails_language known) rfl
    cases readable : options.recognizer.check with
    | error error =>
      refine .inl ⟨.width, _, ⟨.width readable, atWidth⟩, ?_⟩
      simp [GenerateOptions.target, known, readable, Except.mapError, bind,
        Except.bind]
    | ok =>
      have atNames := Fails.rank_le_of_passes .names atWidth
        (not_fails_width readable) rfl
      cases valid : options.code.check with
      | error error =>
        refine .inl ⟨.names, _, ⟨.names valid, atNames⟩, ?_⟩
        simp [GenerateOptions.target, Target.ofRequest, known, readable, valid,
          Except.mapError, bind, Except.bind]
      | ok =>
        have atHeader := Fails.rank_le_of_passes .header atNames
          (not_fails_names valid) rfl
        by_cases split : language = .outline ∧ options.code.isSplit = true
        · obtain ⟨rfl, split⟩ := split
          refine .inl ⟨.header, _, ⟨.header known split, atHeader⟩, ?_⟩
          simp [GenerateOptions.target, Target.ofRequest, known, readable,
            valid, split, Except.mapError, bind, Except.bind]
        · refine .inr ⟨Fails.rank_le_of_passes .opening atHeader ?_ rfl, ?_⟩
          · intro cause fails
            cases fails with
            | header isOutline isSplit =>
              rw [known, Except.ok.injEq] at isOutline
              exact split ⟨isOutline, isSplit⟩
          · cases language <;>
              simp_all [GenerateOptions.target, Target.ofRequest,
                Except.mapError, bind, Except.bind, pure, Except.pure]

/-- What is done with a word list ends with the first failure, or no stage
fails and there is something to do. -/
theorem effects_outcome :
    (∃ stage failure, FailsFirst options input stage failure ∧
      options.effects input = .error failure) ∨
    (∀ stage failure, ¬ Fails options input stage failure) ∧
    ∃ effects, options.effects input = .ok effects := by
  obtain ⟨stage, failure, fails, ends⟩ | ⟨atOpening, chosen⟩ :=
    target_outcome options input
  · refine .inl ⟨stage, failure, fails, ?_⟩
    simp [GenerateOptions.effects, ends, bind, Except.bind]
  cases input with
  | error cause =>
    refine .inl ⟨.opening, _, ⟨.opening rfl, atOpening⟩, ?_⟩
    simp [GenerateOptions.effects, readInput, chosen, bind, Except.bind]
  | ok source =>
    have atReading := Fails.rank_le_of_passes .reading atOpening
      not_fails_opening rfl
    cases read : Lexicon.ofSource source with
    | error error =>
      refine .inl ⟨.reading, _, ⟨.reading rfl read, atReading⟩, ?_⟩
      simp [GenerateOptions.effects, readInput, chosen, read, Except.mapError,
        bind, Except.bind]
    | ok lexicon =>
      have atCounter := Fails.rank_le_of_passes .counter atReading
        (not_fails_reading read) rfl
      cases countable : options.code.checkAgainst lexicon with
      | error error =>
        refine .inl ⟨.counter, _, ⟨.counter rfl read countable, atCounter⟩, ?_⟩
        simp [GenerateOptions.effects, readInput, chosen, read, countable,
          Except.mapError, bind, Except.bind]
      | ok =>
        have atBuilding := Fails.rank_le_of_passes .building atCounter
          (not_fails_counter read countable) rfl
        cases built : lexicon.recognizer options.recognizer with
        | error error =>
          refine .inl
            ⟨.building, _, ⟨.building rfl read built, atBuilding⟩, ?_⟩
          simp [GenerateOptions.effects, readInput, chosen, read, countable,
            built, Except.mapError, bind, Except.bind]
        | ok recognizer =>
          have atWriting := Fails.rank_le_of_passes .writing atBuilding
            (not_fails_building read built) rfl
          cases written : Target.units?
              (match Language.ofName options.language with
                | .ok .code => .code options.code
                | _ => .outline) recognizer lexicon with
          | none =>
            have isCode : Language.ofName options.language = .ok .code := by
              grind [Target.units?]
            rw [isCode] at written chosen
            refine .inl ⟨.writing, _,
              ⟨.writing isCode rfl read built written, atWriting⟩, ?_⟩
            simp [GenerateOptions.effects, readInput, chosen, read, countable,
              built, written, Except.mapError, bind, Except.bind]
          | some units =>
            refine .inr ⟨?_, ?_⟩
            · -- Only writing is left, and the units are there.
              intro stage failure fails
              have last := atWriting stage failure fails
              cases fails with
              | writing isCode opened again rebuilt unwritten =>
                obtain rfl := Except.ok.inj opened
                obtain rfl := Except.ok.inj (read.symm.trans again)
                obtain rfl := Except.ok.inj (built.symm.trans rebuilt)
                simp [isCode, Target.units?, unwritten] at written
              | _ => exact absurd last (by decide)
            · simp [GenerateOptions.effects, readInput, chosen, read,
                countable, built, written, Except.mapError, bind, Except.bind,
                pure, Except.pure]

end

/-- The end of a run that performs effects. -/
def Ending.ofEffects (tree : FileTree) (effects : List Effect) : Ending :=
  match World.performAll ⟨tree, ""⟩ effects with
  | (world, none) => ⟨0, none, world⟩
  | (world, some failure) => ⟨1, some s!"triehash: {failure.line}", world⟩

/-- A run of the generator does what its options say with the opened word
list. -/
theorem run_generate
    {arguments : List String}
    {read : Arguments}
    (accepted : Tool.generate.readArguments arguments = .ok read)
    (standardInput : Bytes)
    (tree : FileTree) :
    Tool.generate.run arguments standardInput tree =
      match read.generateOptions.effects
        (openInput tree standardInput read.generateOptions.input) with
      | .error failure => Tool.generate.failing failure tree
      | .ok effects => Ending.ofEffects tree effects := by
  unfold Tool.run
  rw [accepted]
  rfl

theorem failing_of_isReported
    {failure : Failure}
    (reported : failure.isReported = true)
    (tree : FileTree) :
    Tool.generate.failing failure tree =
      ⟨1, some s!"triehash: {failure.line}", ⟨tree, ""⟩⟩ :=
  if_pos reported

theorem failing_of_not_isReported
    {failure : Failure}
    (broken : failure.isReported = false)
    (tree : FileTree) :
    Tool.generate.failing failure tree = ⟨101, none, ⟨tree, ""⟩⟩ :=
  if_neg (Bool.not_eq_true _ ▸ broken)

theorem exitCode_failing_ne_zero (failure : Failure) (tree : FileTree) :
    (Tool.generate.failing failure tree).exitCode ≠ 0 := by
  cases reported : failure.isReported with
  | true => simp [failing_of_isReported reported]
  | false => simp [failing_of_not_isReported reported]

/-- Only reading a word list breaks off, where a value overflows. -/
theorem Fails.isReported_eq_false_iff
    {options : GenerateOptions}
    {input : Except FileFailure Source}
    {stage : Stage}
    {failure : Failure}
    (fails : Fails options input stage failure) :
    failure.isReported = false ↔ ∃ number,
      failure = .reading options.input (.line number .negationOverflow) := by
  cases fails with
  | @reading _ error _ _ =>
    cases error with
    | line number problem =>
      rw [Failure.isReported, WordListError.isReported,
        Line.Problem.isReported_eq_false_iff]
      simp
    | source cause => simp [Failure.isReported, WordListError.isReported]
  | _ => simp [Failure.isReported]

/-- A run of the generator in which stages fail ends with the failure of the
first of them, with nothing printed and all files as they were.  It has the exit
code one and reports the failure exactly if the failure is not that a value of
the word list overflows, with which it has the exit code of a run that is broken
off.  Only a run in which no stage fails has effects. -/
theorem run_generate_stages
    {arguments : List String}
    {read : Arguments}
    (accepted : Tool.generate.readArguments arguments = .ok read)
    (standardInput : Bytes)
    (tree : FileTree) :
    let options := read.generateOptions
    let input := openInput tree standardInput options.input
    let ending := Tool.generate.run arguments standardInput tree
    (∀ stage failure, Fails options input stage failure →
      ∃ first cause, FailsFirst options input first cause ∧
        ending.world = ⟨tree, ""⟩ ∧
        (ending.exitCode = 1 ∧
            ending.message = some s!"triehash: {cause.line}" ↔
          ∀ number, cause ≠
            .reading options.input (.line number .negationOverflow)) ∧
        (∀ number, cause =
            .reading options.input (.line number .negationOverflow) →
          ending.exitCode = 101 ∧ ending.message = none)) ∧
    ((∀ stage failure, ¬ Fails options input stage failure) →
      ∃ effects, options.effects input = .ok effects ∧
        ending = Ending.ofEffects tree effects) := by
  intro options input ending
  have runs := run_generate accepted standardInput tree
  obtain ⟨first, cause, failsFirst, ends⟩ | ⟨passes, effects, ends⟩ :=
    effects_outcome options input
  · rw [ends] at runs
    have stopped : ending = Tool.generate.failing cause tree := runs
    refine ⟨fun _ _ _ => ⟨first, cause, failsFirst, ?_⟩,
      fun passes => absurd failsFirst.fails (passes first cause)⟩
    have overflows := failsFirst.fails.isReported_eq_false_iff
    cases reported : cause.isReported with
    | true =>
      rw [stopped, failing_of_isReported reported]
      have other : ∀ number, cause ≠
          .reading options.input (.line number .negationOverflow) := by
        intro number equal
        simp [overflows.mpr ⟨number, equal⟩] at reported
      exact ⟨rfl, ⟨fun _ => other, fun _ => ⟨rfl, rfl⟩⟩,
        fun number equal => absurd equal (other number)⟩
    | false =>
      rw [stopped, failing_of_not_isReported reported]
      obtain ⟨number, broken⟩ := overflows.mp reported
      exact ⟨rfl, ⟨nofun, fun other => absurd broken (other number)⟩,
        fun _ _ => ⟨rfl, rfl⟩⟩
  · rw [ends] at runs
    exact ⟨fun stage failure fails => absurd fails (passes stage failure),
      fun _ => ⟨effects, ends, runs⟩⟩

/-- An outline with a header is refused before the word list is read, although
the second line of that is no declaration. -/
theorem run_generate_stages_outlineWithHeader :
    Tool.generate.run
        ["words", "--code", "out/keys.c", "--language=tree", "-Hkeys.h"]
        [] ⟨[(["."], .directory),
          ([".", "words"], .file (Bytes.ofString "Red = 1\nRed = = 2\n"))]⟩ =
      ⟨1, some ("triehash: the tree listing is a single document; " ++
        "a separate header needs the C backend"),
        ⟨⟨[(["."], .directory),
          ([".", "words"],
            .file (Bytes.ofString "Red = 1\nRed = = 2\n"))]⟩, ""⟩⟩ := by
  generalize (⟨[(["."], .directory),
    ([".", "words"], .file (Bytes.ofString "Red = 1\nRed = = 2\n"))]⟩ :
      FileTree) = tree
  obtain ⟨read, readIs⟩ : ∃ read : Arguments, read =
      ⟨[("header", "keys.h"), ("language", "tree"), ("code", "out/keys.c")],
        some "words"⟩ := ⟨_, rfl⟩
  have accepted : Tool.generate.readArguments
      ["words", "--code", "out/keys.c", "--language=tree", "-Hkeys.h"] =
        .ok read := by
    rw [readIs]; rfl
  have known : Language.ofName read.generateOptions.language =
      .ok .outline := by
    rw [readIs]; rfl
  have readable : read.generateOptions.recognizer.check = .ok () := by
    rw [readIs]; rfl
  have valid : read.generateOptions.code.check = .ok () := by
    rw [readIs]; rfl
  have fails (input) : Fails read.generateOptions input .header
      (.request .splitOutline) :=
    .header known (by rw [readIs]; rfl)
  have failsFirst (input) : FailsFirst read.generateOptions input .header
      (.request .splitOutline) := by
    refine ⟨fails input, fun other cause otherFails => ?_⟩
    cases otherFails with
    | language unknown => simp [known] at unknown
    | width unreadable => simp [readable] at unreadable
    | names invalid => simp [valid] at invalid
    | _ => decide
  obtain ⟨first, cause, causeFirst, kept, reports, _⟩ :=
    (run_generate_stages accepted [] tree).1 .header _ (fails _)
  obtain rfl := causeFirst.unique (failsFirst _)
  obtain ⟨exits, reported⟩ := reports.mpr fun _ equal => by cases equal
  have parts : ∀ {ending : Ending}, ending.world = ⟨tree, ""⟩ →
      ending.exitCode = 1 → ∀ {message}, ending.message = some message →
        ending = ⟨1, some message, ⟨tree, ""⟩⟩ := by
    rintro ⟨_, _, _⟩ rfl rfl _ rfl
    rfl
  exact parts kept exits reported

/-- A line whose value overflows breaks the run off with another exit code and
no report. -/
theorem not_reported_negatedLeast :
    let input := Bytes.ofString "x = --9223372036854775808\n"
    (∃ read stage failure,
      Tool.generate.readArguments ["--code", "keys.c"] = .ok read ∧
      Fails read.generateOptions
        (openInput .empty input read.generateOptions.input) stage failure) ∧
    Tool.generate.run ["--code", "keys.c"] input .empty =
      ⟨101, none, ⟨.empty, ""⟩⟩ := by
  have accepted : Tool.generate.readArguments ["--code", "keys.c"] =
      .ok ⟨[("code", "keys.c")], none⟩ := by
    rfl
  have refused : Lexicon.ofSource
      (.ofBytes (Bytes.ofString "x = --9223372036854775808\n")) =
        .error (.line 1 .negationOverflow) := by
    rw [Bytes.ofString_eq]
    rfl
  have ends : Tool.generate.run ["--code", "keys.c"]
      (Bytes.ofString "x = --9223372036854775808\n") .empty =
        ⟨101, none, ⟨.empty, ""⟩⟩ := by
    rw [Bytes.ofString_eq]
    rfl
  exact ⟨⟨_, .reading, _, accepted, .reading rfl refused⟩, ends⟩

end Command
end WordSwitch
