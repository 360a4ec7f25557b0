import WordSwitch.Proofs.Command.Writing
import WordSwitch.Proofs.Program.Form

/-!
# Where the units go

The form of the two units follows from whether a header is asked for.  Where they
go follows from how the two paths are spelled and from what they lead to.  The
two agree unless a header is asked for at the place of the code.
-/

namespace WordSwitch
namespace Command

/-- Where a unit goes. -/
inductive Destination where
  /-- The unit is printed. -/
  | output
  /-- The unit is saved to a file. -/
  | file (place : Location)
deriving DecidableEq, Repr

namespace World

/-- A destination has got a text: it is what has been printed since, or the whole
content of the file. -/
def Holds (before after : World) (text : String) : Destination → Prop
  | .output => after.printed = before.printed ++ text
  | .file place => after.tree.content? place = some (Bytes.ofString text)

/-- What a path leads to if it can be opened, with what is there then. -/
def destination? (world : World) : Option Path → Option (World × Destination)
  | none => some (world, .output)
  | some path =>
    match world.openFile path with
    | (opened, .ok place) => some (opened, .file place)
    | (_, .error _) => none

end World

namespace GenerateOptions

variable {options : GenerateOptions} {units : Units} {before after : World}

/-- Where the two units go, the declarations first, if the files for them can be
opened. -/
def destinations?
    (options : GenerateOptions)
    (before : World) :
    Option (Destination × Destination) :=
  match options.separateHeader? with
  | none =>
    (before.destination? options.codePath).map fun (_, only) => (only, only)
  | some header =>
    (before.destination? (some header)).bind fun (opened, first) =>
      (opened.destination? options.codePath).map fun (_, second) =>
        (first, second)

/-- What has been written where.  Units that go to one place follow each other
there, unless the header is spelled in another way: then one unit is written over
the other. -/
structure Written
    (options : GenerateOptions)
    (units : Units)
    (before after : World)
    (declarations definitions : Destination) :
    Prop where
  destinations : options.destinations? before = some (declarations, definitions)
  joined : options.separateHeader? = none →
    declarations = definitions ∧
      before.Holds after units.joined declarations
  apart : declarations ≠ definitions →
    before.Holds after units.declarations declarations ∧
      before.Holds after units.definitions definitions
  overwritten : options.separateHeader?.isSome = true → ∀ place,
    declarations = .file place → definitions = .file place →
      after.tree.content? place = some
        (FileTree.overwrite (Bytes.ofString units.declarations)
          (Bytes.ofString units.definitions))

/-- Units that have been written have got to their destinations. -/
theorem exists_written
    (performed :
      before.performAll (options.unitEffects units) = (after, none)) :
    ∃ declarations definitions,
      options.Written units before after declarations definitions := by
  unfold unitEffects at performed
  split at performed
  · next header code separate codeGiven =>
    obtain ⟨opened, places, opens, saved⟩ :=
      World.exists_opensAll_of_performAll performed
    cases saved
    have content := opens.content?_saved
    obtain ⟨middle, first, _, first_opened, second_opens, rfl⟩ :=
      opens.exists_of_cons
    obtain ⟨last, second, _, second_opened, ends, rfl⟩ :=
      second_opens.exists_of_cons
    obtain ⟨rfl, rfl⟩ := ends.eq_of_nil
    refine ⟨.file first, .file second, ?_, by simp [separate], ?_, ?_⟩
    · simp [destinations?, separate, codeGiven, World.destination?,
        first_opened, second_opened]
    · intro different
      have apart : first ≠ second := fun equal => different (by rw [equal])
      constructor
      · rw [World.Holds, content first (by simp)]
        simp [World.written, Ne.symm apart]
      · rw [World.Holds, content second (by simp)]
        simp [World.written, apart]
    · rintro _ place ⟨⟩ ⟨⟩
      exact (content first (by simp)).trans (by simp [World.written])
  · next header separate codeGiven =>
    obtain ⟨opened, place, saved, place_opened, performed, content, printed⟩ :=
      World.exists_saved_of_performAll performed
    cases performed
    refine ⟨.file place, .output, ?_, by simp [separate],
      fun _ => ⟨content, ?_⟩, ?_⟩
    · simp [destinations?, separate, codeGiven, World.destination?,
        place_opened]
    · rw [World.Holds, ← printed]
    · rintro _ _ _ ⟨⟩
  · next code separate codeGiven =>
    obtain ⟨opened, place, saved, place_opened, performed, content, _⟩ :=
      World.exists_saved_of_performAll performed
    cases performed
    refine ⟨.file place, .file place, ?_, fun _ => ⟨rfl, content⟩,
      fun different => absurd rfl different, by simp [separate]⟩
    simp [destinations?, separate, codeGiven, World.destination?, place_opened]
  · next separate codeGiven =>
    cases performed
    refine ⟨.output, .output, ?_, fun _ => ⟨rfl, rfl⟩,
      fun different => absurd rfl different, ?_⟩
    · simp [destinations?, separate, codeGiven, World.destination?]
    · rintro _ _ ⟨⟩

/-- The same code can be written as a text for one destination, which includes no
header of its own. -/
theorem Generates.exists_single
    {input : Except FileFailure Source}
    {lexicon : Lexicon}
    {recognizer : Recognizer}
    (generates : options.Generates input lexicon recognizer units)
    (isCode : Language.ofName options.language = .ok .code) :
    ∃ single, Program.units? options.code.withoutHeader recognizer lexicon =
        some single ∧
      Source.includedFiles single.definitions ⊆
        Source.includedFiles "#include <string.h>" := by
  obtain ⟨target, target_eq, _⟩ := generates.emitted
  obtain ⟨_, checked⟩ := eq_code_of_target isCode target_eq
  obtain ⟨source, read⟩ := generates.exists_source
  obtain ⟨single, emitted⟩ := Lexicon.exists_units_withoutHeader read checked
    generates.countable recognizer
  exact ⟨single, emitted, Lexicon.includedFiles_withoutHeader read
    generates.built checked emitted⟩

/-- The form of some units agrees with where they go: they are split exactly if
they have different destinations, and a common destination has got the text for
one. -/
structure Agrees
    (options : GenerateOptions)
    (environment : Source.Environment)
    (units single : Units)
    (before after : World)
    (declarations definitions : Destination) :
    Prop where
  closesGuard :
    options.code.ClosesGuard environment units.declarations ↔
      declarations ≠ definitions
  includesHeader :
    options.code.IncludesHeader units.definitions ↔ declarations ≠ definitions
  joined : declarations = definitions →
    before.Holds after single.joined declarations

/-- The form agrees with the destinations unless a header has the destination of
the code. -/
theorem Written.agrees_iff
    {input : Except FileFailure Source}
    {lexicon : Lexicon}
    {recognizer : Recognizer}
    {declarations definitions : Destination}
    (written : options.Written units before after declarations definitions)
    (generates : options.Generates input lexicon recognizer units)
    (isCode : Language.ofName options.language = .ok .code)
    (split_eq : options.code.isSplit = options.headerPath.isSome)
    {single : Units}
    (single_emitted :
      Program.units? options.code.withoutHeader recognizer lexicon =
        some single)
    (environment : Source.Environment) :
    options.Agrees environment units single before after declarations
        definitions ↔
      (options.headerPath.isSome = true → declarations ≠ definitions) := by
  obtain ⟨target, target_eq, emitted⟩ := generates.emitted
  obtain ⟨rfl, checked⟩ := eq_code_of_target isCode target_eq
  obtain ⟨source, read⟩ := generates.exists_source
  have closes_iff := Lexicon.closesGuard_iff read checked generates.countable
    emitted environment
  have includes_iff := Program.includesHeader_iff emitted
  rw [split_eq] at closes_iff includes_iff
  constructor
  · intro agrees given
    exact agrees.closesGuard.mp (closes_iff.mpr given)
  · intro apart
    cases header_eq : options.headerPath with
    | some header =>
      rw [header_eq] at closes_iff includes_iff apart
      have different := apart rfl
      exact ⟨iff_of_true (closes_iff.mpr rfl) different,
        iff_of_true (includes_iff.mpr rfl) different,
        fun equal => absurd equal different⟩
    | none =>
      rw [header_eq] at closes_iff includes_iff split_eq
      have unnamed : options.code.withoutHeader = options.code := by
        have absent : options.code.headerName = none :=
          Option.isNone_iff_eq_none.mp (Option.isSome_eq_false_iff.mp split_eq)
        rw [CodeConfig.withoutHeader, ← absent]
      have units_emitted : Program.units? options.code recognizer lexicon =
        some units := emitted
      rw [unnamed, units_emitted] at single_emitted
      cases single_emitted
      obtain ⟨same, joined⟩ :=
        written.joined (separateHeader?_of_headerPath header_eq)
      exact ⟨iff_of_false (fun closes => by simpa using closes_iff.mp closes)
          (not_not_intro same),
        iff_of_false (fun includes => by simpa using includes_iff.mp includes)
          (not_not_intro same),
        fun _ => joined⟩

end GenerateOptions

section

variable
  {arguments : List String}
  {read : Arguments}
  {standardInput : Bytes}
  {tree : FileTree}

/-- A run that succeeds and writes its units has reached and written them. -/
theorem exists_reachesUnits_of_success
    (accepted : Tool.generate.readArguments arguments = .ok read)
    (writes : read.generateOptions.writesUnits = true)
    (succeeds :
      (Tool.generate.run arguments standardInput tree).exitCode = 0) :
    ∃ lexicon recognizer units before,
      read.generateOptions.ReachesUnits
        (openInput tree standardInput read.generateOptions.input) tree lexicon
        recognizer units before ∧
      before.performAll (read.generateOptions.unitEffects units) =
        ((Tool.generate.run arguments standardInput tree).world, none) := by
  rw [run_generate accepted] at succeeds ⊢
  split at succeeds
  · next failure _ => exact absurd succeeds (exitCode_failing_ne_zero failure tree)
  · next effects effects_eq =>
    obtain ⟨lexicon, recognizer, units, generates, rfl⟩ :=
      GenerateOptions.effects_eq_ok_iff.mp effects_eq
    rw [writes, if_pos rfl] at succeeds ⊢
    unfold Ending.ofEffects at succeeds ⊢
    split at succeeds
    · next world performed =>
      obtain ⟨before, reached, units_performed⟩ :=
        World.exists_of_performAll_append performed
      exact ⟨lexicon, recognizer, units, before,
        ⟨generates, writes, reached⟩, units_performed⟩
    · cases succeeds

/-- A run that succeeds in writing code has written the units of the word list
to their destinations.  What it has written agrees with where it went, unless a
header is asked for and has the destination of the code.  A text for one
destination includes no header of its own. -/
theorem run_generate_destinations
    (accepted : Tool.generate.readArguments arguments = .ok read)
    (isCode : Language.ofName read.generateOptions.language = .ok .code)
    (writes : read.generateOptions.writesUnits = true)
    (succeeds :
      (Tool.generate.run arguments standardInput tree).exitCode = 0)
    (environment : Source.Environment) :
    let options := read.generateOptions
    let ending := Tool.generate.run arguments standardInput tree
    ∃ lexicon recognizer units single before declarations definitions,
      options.ReachesUnits (openInput tree standardInput options.input) tree
        lexicon recognizer units before ∧
      Program.units? options.code.withoutHeader recognizer lexicon =
        some single ∧
      Source.includedFiles single.definitions ⊆
        Source.includedFiles "#include <string.h>" ∧
      options.Written units before ending.world declarations definitions ∧
      (options.Agrees environment units single before ending.world declarations
          definitions ↔
        (options.headerPath.isSome = true → declarations ≠ definitions)) := by
  intro options ending
  obtain ⟨lexicon, recognizer, units, before, reaches, performed⟩ :=
    exists_reachesUnits_of_success accepted writes succeeds
  obtain ⟨declarations, definitions, written⟩ :=
    GenerateOptions.exists_written performed
  obtain ⟨single, single_emitted, includes⟩ :=
    reaches.toGenerates.exists_single isCode
  have split_eq : options.code.isSplit = options.headerPath.isSome :=
    Option.isSome_map
  exact ⟨lexicon, recognizer, units, single, before, declarations, definitions,
    reaches, single_emitted, includes, written,
    written.agrees_iff reaches.toGenerates isCode split_eq single_emitted
      environment⟩

end

/-- Two files in the working directory get a unit each. -/
theorem run_generate_destinations_separate :
    let options := Arguments.generateOptions
      ⟨[("code", "keys.c"), ("header", "keys.h")], none⟩
    let ending := Tool.generate.run
      ["--header", "keys.h", "--code", "keys.c"] (Bytes.ofString "red\n") .empty
    ∃ units single before,
      options.Written units before ending.world (.file [".", "keys.h"])
        (.file [".", "keys.c"]) ∧
      options.Agrees ⟨.little, true, false⟩ units single before ending.world
        (.file [".", "keys.h"]) (.file [".", "keys.c"]) := by
  intro options ending
  have accepted : Tool.generate.readArguments
      ["--header", "keys.h", "--code", "keys.c"] =
        .ok ⟨[("code", "keys.c"), ("header", "keys.h")], none⟩ := by
    rfl
  obtain ⟨units, reaches⟩ :=
    options.exists_reachesUnits_red (by decide +kernel) rfl rfl rfl rfl .empty
  have opens : World.OpensAll ⟨.empty, ""⟩
      [(⟨"keys.h"⟩, units.declarations), (⟨"keys.c"⟩, units.definitions)] _
      _ :=
    .cons _ rfl (.cons _ rfl (.nil _))
  have ends := run_of_opensAll accepted reaches
    (GenerateOptions.unitEffects_of_different rfl rfl rfl units) opens
  obtain ⟨_, _, _, single, before, declarations, definitions, reached, _, _,
    written, agrees_iff⟩ := run_generate_destinations accepted rfl rfl
      (congrArg Ending.exitCode ends) ⟨.little, true, false⟩
  obtain ⟨tree, printed⟩ := before
  obtain rfl : tree = .empty := reached.tree_eq rfl
  have found : options.destinations? ⟨.empty, printed⟩ =
      some (.file [".", "keys.h"], .file [".", "keys.c"]) := rfl
  have destinations := written.destinations
  rw [found] at destinations
  cases destinations
  exact ⟨_, single, _, written, agrees_iff.mpr fun _ => by decide⟩

/-- A header that is the code itself gets both units in the form of two
files. -/
theorem not_agrees_headerIsCode :
    ∃ read lexicon recognizer units single before destination,
      let options := read.generateOptions
      let ending := Tool.generate.run
        ["--code", "keys.h", "--header", "keys.h"] (Bytes.ofString "red\n")
        .empty
      Tool.generate.readArguments ["--code", "keys.h", "--header", "keys.h"] =
        .ok read ∧
      Language.ofName options.language = .ok .code ∧
      options.writesUnits = true ∧
      ending.exitCode = 0 ∧
      options.ReachesUnits
        (openInput .empty (Bytes.ofString "red\n") options.input) .empty lexicon
        recognizer units before ∧
      Program.units? options.code.withoutHeader recognizer lexicon =
        some single ∧
      options.Written units before ending.world destination destination ∧
      before.Holds ending.world units.joined destination ∧
      ¬options.Agrees ⟨.little, true, false⟩ units single before ending.world
        destination destination := by
  let read : Arguments := ⟨[("header", "keys.h"), ("code", "keys.h")], none⟩
  let options := read.generateOptions
  have accepted : Tool.generate.readArguments
      ["--code", "keys.h", "--header", "keys.h"] = .ok read := by
    rfl
  have isCode : Language.ofName options.language = .ok .code := by rfl
  have together : options.separateHeader? = none :=
    (GenerateOptions.separateHeader?_eq rfl rfl).trans (if_pos rfl)
  have succeeds : (Tool.generate.run ["--code", "keys.h", "--header", "keys.h"]
      (Bytes.ofString "red\n") .empty).exitCode = 0 := by
    obtain ⟨units, reaches⟩ :=
      options.exists_reachesUnits_red (by decide +kernel) rfl rfl rfl rfl .empty
    have saves : options.unitEffects units =
        [.save [(⟨"keys.h"⟩, units.joined)]] := by
      rw [GenerateOptions.unitEffects, together]
      rfl
    have opens : World.OpensAll ⟨.empty, ""⟩ [(⟨"keys.h"⟩, units.joined)] _ _ :=
      .cons _ rfl (.nil _)
    rw [run_of_opensAll accepted reaches saves opens]
  obtain ⟨lexicon, recognizer, units, before, reaches, performed⟩ :=
    exists_reachesUnits_of_success accepted rfl succeeds
  obtain ⟨declarations, definitions, written⟩ :=
    GenerateOptions.exists_written performed
  obtain ⟨rfl, joined⟩ := written.joined together
  obtain ⟨single, single_emitted, _⟩ :=
    reaches.toGenerates.exists_single isCode
  refine ⟨read, lexicon, recognizer, units, single, before, declarations,
    accepted, isCode, rfl, succeeds, reaches, single_emitted, written, joined,
    ?_⟩
  rw [written.agrees_iff reaches.toGenerates isCode rfl single_emitted]
  exact fun apart => apart rfl rfl

end Command
end WordSwitch
