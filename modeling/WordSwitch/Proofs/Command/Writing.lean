import WordSwitch.Proofs.Command.Saving
import WordSwitch.Proofs.Command.Stages

/-!
# Writing the units

The last thing that a run of the generator does is to write the two units.  If
they go to two files, the declarations are opened first.  A run in which the
definitions cannot be opened then fails when the file of the declarations is
empty already.
-/

namespace WordSwitch
namespace Command

open FileTree (SameFiles)

/-! ## Runs that reach the units -/

theorem mapError_eq_ok_iff
    {ε ε' α : Type}
    {result : Except ε α}
    {change : ε → ε'}
    {value : α} :
    result.mapError change = .ok value ↔ result = .ok value := by
  cases result <;> simp [Except.mapError]

namespace GenerateOptions

variable
  {options : GenerateOptions}
  {input : Except FileFailure Source}
  {tree : FileTree}
  {lexicon : Lexicon}
  {recognizer : Recognizer}
  {units : Units}
  {before : World}

/-- No stage fails, and these are the lexicon, the recognizer and the units that
come of it. -/
structure Generates
    (options : GenerateOptions)
    (input : Except FileFailure Source)
    (lexicon : Lexicon)
    (recognizer : Recognizer)
    (units : Units) :
    Prop where
  read : readInput options.input input = .ok lexicon
  countable : options.code.checkAgainst lexicon = .ok ()
  built : lexicon.recognizer options.recognizer = .ok recognizer
  emitted : ∃ target, options.target = .ok target ∧
    target.units? recognizer lexicon = some units

/-- There are effects exactly if no stage fails: the checks, the export and the
units, in this order. -/
theorem effects_eq_ok_iff {effects : List Effect} :
    options.effects input = .ok effects ↔
      ∃ lexicon recognizer units,
        options.Generates input lexicon recognizer units ∧
        effects = options.checkEffects recognizer ++
          options.exportEffects lexicon recognizer ++
          (if options.writesUnits then options.unitEffects units else []) := by
  constructor
  · intro succeeds
    obtain ⟨target, target_eq, succeeds⟩ := exists_of_bind_eq_ok succeeds
    obtain ⟨lexicon, read, succeeds⟩ := exists_of_bind_eq_ok succeeds
    obtain ⟨_, countable, succeeds⟩ := exists_of_bind_eq_ok succeeds
    obtain ⟨recognizer, built, succeeds⟩ := exists_of_bind_eq_ok succeeds
    split at succeeds
    · cases succeeds
    · next units emitted =>
      cases succeeds
      exact ⟨lexicon, recognizer, units,
        ⟨read, mapError_eq_ok_iff.mp countable, mapError_eq_ok_iff.mp built,
          target, target_eq, emitted⟩, rfl⟩
  · rintro ⟨lexicon, recognizer, units,
      ⟨read, countable, built, target, target_eq, emitted⟩, rfl⟩
    simp [effects, target_eq, read, countable, built, emitted, bind,
      Except.bind, Except.mapError, pure, Except.pure]

/-- What is generated in the language of code are the units for names that pass
the checks. -/
theorem eq_code_of_target
    (isCode : Language.ofName options.language = .ok .code)
    {target : Target}
    (target_eq : options.target = .ok target) :
    target = .code options.code ∧ options.code.check = .ok () := by
  obtain ⟨language, language_eq, target_eq⟩ := exists_of_bind_eq_ok target_eq
  obtain ⟨_, _, target_eq⟩ := exists_of_bind_eq_ok target_eq
  rw [mapError_eq_ok_iff, isCode] at language_eq
  cases language_eq
  obtain ⟨_, checked, target_eq⟩ :=
    exists_of_bind_eq_ok (mapError_eq_ok_iff.mp target_eq)
  cases target_eq
  exact ⟨rfl, checked⟩

/-- The word list that was read. -/
theorem Generates.exists_source
    {input : Except FileFailure Source}
    {lexicon : Lexicon}
    {recognizer : Recognizer}
    (generates : options.Generates input lexicon recognizer units) :
    ∃ source, Lexicon.ofSource source = .ok lexicon := by
  have read := generates.read
  unfold readInput at read
  split at read
  · cases read
  · exact ⟨_, mapError_eq_ok_iff.mp read⟩

/-- A run passes all stages, its checks and its export, and is left with the
units to write. -/
structure ReachesUnits
    (options : GenerateOptions)
    (input : Except FileFailure Source)
    (tree : FileTree)
    (lexicon : Lexicon)
    (recognizer : Recognizer)
    (units : Units)
    (before : World) :
    Prop
    extends options.Generates input lexicon recognizer units where
  writes : options.writesUnits = true
  performed : World.performAll ⟨tree, ""⟩
    (options.checkEffects recognizer ++
      options.exportEffects lexicon recognizer) = (before, none)

/-- Without an export, all files are as they were when the units are
reached. -/
theorem ReachesUnits.tree_eq
    (reaches :
      options.ReachesUnits input tree lexicon recognizer units before)
    (unexported : options.exportPath = none) :
    before.tree = tree := by
  have performed := reaches.performed
  unfold checkEffects exportEffects at performed
  rw [unexported] at performed
  split at performed <;> cases performed <;> rfl

/-- What follows when the units are reached. -/
theorem ReachesUnits.ofEffects
    (reaches :
      options.ReachesUnits input tree lexicon recognizer units before) :
    ∃ effects, options.effects input = .ok effects ∧
      World.performAll ⟨tree, ""⟩ effects =
        before.performAll (options.unitEffects units) := by
  refine ⟨_, effects_eq_ok_iff.mpr
    ⟨lexicon, recognizer, units, reaches.toGenerates, rfl⟩, ?_⟩
  rw [reaches.writes, if_pos rfl, World.performAll_append, reaches.performed]

/-- Without a header there is one destination. -/
theorem separateHeader?_of_headerPath
    (ungiven : options.headerPath = none) :
    options.separateHeader? = none := by
  rw [separateHeader?, ungiven]
  rfl

/-- A header has a destination of its own unless it is spelled like the
code. -/
theorem separateHeader?_eq
    {header code : Path}
    (headerGiven : options.headerPath = some header)
    (codeGiven : options.codePath = some code) :
    options.separateHeader? =
      if header.isSameAs code then none else some header := by
  rw [separateHeader?, headerGiven, codeGiven]
  cases alike : header.isSameAs code <;> simp [Option.filter, alike]

/-- Two files that are not spelled alike are saved together, the declarations
first. -/
theorem unitEffects_of_different
    {header code : Path}
    (headerGiven : options.headerPath = some header)
    (codeGiven : options.codePath = some code)
    (different : header.isSameAs code = false)
    (units : Units) :
    options.unitEffects units =
      [.save [(header, units.declarations), (code, units.definitions)]] := by
  rw [unitEffects, separateHeader?_eq headerGiven codeGiven, different,
    codeGiven]
  rfl

end GenerateOptions

/-- What is read from a list of one word. -/
def red : Lexicon :=
  ⟨⟨[(Bytes.ofString "red", "red")]⟩, ⟨[("red", 0)]⟩, ⟨"Unknown", -1⟩,
    ⟨some 1⟩⟩

/-- The recognizer of that word. -/
def redRecognizer : Recognizer :=
  ⟨false, 1, red.lengthTries ⟨false, false, 8⟩, red.fallback⟩

/-- Plain code for one word is reached with any names that pass the checks. -/
theorem GenerateOptions.exists_reachesUnits_red
    (options : GenerateOptions)
    (target_eq : options.target = .ok (.code options.code))
    (recognizer_eq : options.recognizer = ⟨false, false, 8⟩)
    (uncounted : options.code.counterName = none)
    (unchecked : options.checks = [])
    (unexported : options.exportPath = none)
    (tree : FileTree) :
    ∃ units, options.ReachesUnits (.ok (.ofBytes (Bytes.ofString "red\n")))
      tree red redRecognizer units ⟨tree, ""⟩ := by
  have read : Lexicon.ofSource (.ofBytes (Bytes.ofString "red\n")) =
      .ok red := by
    decide +kernel
  have countable : options.code.checkAgainst red = .ok () := by
    rw [CodeConfig.checkAgainst, uncounted]
  have built : red.recognizer options.recognizer = .ok redRecognizer := by
    rw [recognizer_eq]
    rfl
  obtain ⟨units, emitted⟩ : ∃ units,
      Program.units? options.code redRecognizer red = some units := by
    rw [Program.units?, Program.declarationLines?, Program.counterLines?,
      uncounted]
    exact ⟨_, rfl⟩
  refine ⟨units, ⟨?_, countable, built, _, target_eq, emitted⟩, ?_, ?_⟩
  · rw [readInput, read]
    rfl
  · rw [GenerateOptions.writesUnits, unchecked]
    rfl
  · rw [GenerateOptions.checkEffects, GenerateOptions.exportEffects, unchecked,
      unexported]
    rfl

section

variable
  {arguments : List String}
  {read : Arguments}
  {standardInput : Bytes}
  {tree : FileTree}
  {lexicon : Lexicon}
  {recognizer : Recognizer}
  {units : Units}
  {before after : World}

/-- A run ends as the units are written. -/
theorem run_of_reachesUnits
    (accepted : Tool.generate.readArguments arguments = .ok read)
    (reaches : read.generateOptions.ReachesUnits
      (openInput tree standardInput read.generateOptions.input) tree lexicon
      recognizer units before) :
    Tool.generate.run arguments standardInput tree =
      match before.performAll (read.generateOptions.unitEffects units) with
      | (world, none) => ⟨0, none, world⟩
      | (world, some failure) =>
        ⟨1, some s!"triehash: {failure.line}", world⟩ := by
  obtain ⟨effects, effects_eq, performed⟩ := reaches.ofEffects
  rw [run_generate accepted, effects_eq, ← performed]
  rfl

/-- A run fails where a file of the units cannot be opened. -/
theorem run_of_stopsAt
    (accepted : Tool.generate.readArguments arguments = .ok read)
    (reaches : read.generateOptions.ReachesUnits
      (openInput tree standardInput read.generateOptions.input) tree lexicon
      recognizer units before)
    {files : List (Path × String)}
    (saves : read.generateOptions.unitEffects units = [.save files])
    {places : List Location}
    {failure : Failure}
    (stops : World.StopsAt before files after places failure) :
    Tool.generate.run arguments standardInput tree =
      ⟨1, some s!"triehash: {failure.line}", after⟩ := by
  rw [run_of_reachesUnits accepted reaches, saves, World.performAll,
    World.perform, stops.saveAll]

/-- A run succeeds if all files of the units can be opened. -/
theorem run_of_opensAll
    (accepted : Tool.generate.readArguments arguments = .ok read)
    (reaches : read.generateOptions.ReachesUnits
      (openInput tree standardInput read.generateOptions.input) tree lexicon
      recognizer units before)
    {files : List (Path × String)}
    (saves : read.generateOptions.unitEffects units = [.save files])
    {places : List (Location × String)}
    (opens : World.OpensAll before files after places) :
    Tool.generate.run arguments standardInput tree =
      ⟨0, none, after.writeAll places⟩ := by
  rw [run_of_reachesUnits accepted reaches, saves, World.performAll,
    World.perform, opens.saveAll]
  rfl

/-- A run that reaches the units with a header and a code file that are not
spelled alike, and cannot open both, fails.  If it opened the header, the header
is empty, and all other files are as they were.  So all files are kept exactly if
the header cannot be opened either or was there and empty before. -/
theorem run_generate_unopened
    (accepted : Tool.generate.readArguments arguments = .ok read)
    (reaches : read.generateOptions.ReachesUnits
      (openInput tree standardInput read.generateOptions.input) tree lexicon
      recognizer units before)
    {header code : Path}
    (headerGiven : read.generateOptions.headerPath = some header)
    (codeGiven : read.generateOptions.codePath = some code)
    (different : header.isSameAs code = false)
    (unopened : ¬∃ opened places, World.OpensAll before
      [(header, units.declarations), (code, units.definitions)]
      opened places) :
    let ending := Tool.generate.run arguments standardInput tree
    ending.exitCode = 1 ∧
      (∀ place, (before.openFile header).2 = .ok place →
        ending.world.tree.content? place = some []) ∧
      (∀ place, (before.openFile header).2 ≠ .ok place →
        ending.world.tree.content? place = before.tree.content? place) ∧
      (SameFiles before.tree ending.world.tree ↔
        ∀ place, (before.openFile header).2 = .ok place →
          before.tree.content? place = some []) := by
  obtain ⟨after, places, failure, stops⟩ :=
    (World.opensAll_or_stopsAt before _).resolve_left unopened
  have saves := GenerateOptions.unitEffects_of_different headerGiven codeGiven
    different units
  rw [run_of_stopsAt accepted reaches saves stops]
  have empties := stops.empties
  have opened_iff : ∀ place,
      (before.openFile header).2 = .ok place ↔ place ∈ places := by
    intro place
    cases stops with
    | here _ _ failed => simp [failed]
    | later _ opened stops =>
      cases stops with
      | here => simp [opened, eq_comm]
      | later _ _ stops => cases stops
  refine ⟨rfl, ?_⟩
  simp only [ne_eq, opened_iff]
  exact ⟨empties.empty, empties.others, empties.sameFiles_iff⟩

end

/-- A header that lies below a file is not opened, and nothing is changed. -/
theorem run_generate_unopened_belowFile :
    let tree : FileTree := ⟨[(["."], .directory),
      ([".", "notes"], .file [110, 111])]⟩
    let ending := Tool.generate.run
      ["--header", "notes/keys.h", "--code", "keys.c"]
      (Bytes.ofString "red\n") tree
    ending.exitCode = 1 ∧ SameFiles tree ending.world.tree := by
  intro tree ending
  let read : Arguments :=
    ⟨[("code", "keys.c"), ("header", "notes/keys.h")], none⟩
  have accepted : Tool.generate.readArguments
      ["--header", "notes/keys.h", "--code", "keys.c"] = .ok read := by
    rfl
  obtain ⟨units, reaches⟩ := read.generateOptions.exists_reachesUnits_red
    (by decide +kernel) rfl rfl rfl rfl tree
  have failed : World.openFile ⟨tree, ""⟩ ⟨"notes/keys.h"⟩ =
      (⟨tree, ""⟩, .error (.makingDirectory .alreadyExists)) := by
    rfl
  obtain ⟨exits, _, _, kept⟩ := run_generate_unopened accepted reaches rfl rfl
    (by rfl) (World.StopsAt.here _ _ failed).not_opensAll
  refine ⟨exits, kept.mpr ?_⟩
  intro place opened
  rw [failed] at opened
  cases opened

/-- A header that could be opened is emptied although the place for the code is
a directory. -/
theorem not_sameFiles_codeIsDirectory :
    let tree : FileTree := ⟨[(["."], .directory), ([".", "out"], .directory),
      ([".", "keys.h"], .file [111, 108, 100])]⟩
    ∃ read lexicon recognizer units,
      Tool.generate.readArguments ["--header", "keys.h", "--code", "out"] =
        .ok read ∧
      read.generateOptions.ReachesUnits
        (openInput tree (Bytes.ofString "red\n") read.generateOptions.input)
        tree lexicon recognizer units ⟨tree, ""⟩ ∧
      read.generateOptions.headerPath = some ⟨"keys.h"⟩ ∧
      read.generateOptions.codePath = some ⟨"out"⟩ ∧
      Path.isSameAs ⟨"keys.h"⟩ ⟨"out"⟩ = false ∧
      (¬∃ opened places, World.OpensAll ⟨tree, ""⟩
        [(⟨"keys.h"⟩, units.declarations), (⟨"out"⟩, units.definitions)]
        opened places) ∧
      ¬SameFiles tree
        (Tool.generate.run ["--header", "keys.h", "--code", "out"]
          (Bytes.ofString "red\n") tree).world.tree := by
  intro tree
  let read : Arguments := ⟨[("code", "out"), ("header", "keys.h")], none⟩
  have accepted : Tool.generate.readArguments
      ["--header", "keys.h", "--code", "out"] = .ok read := by
    rfl
  obtain ⟨units, reaches⟩ := read.generateOptions.exists_reachesUnits_red
    (by decide +kernel) rfl rfl rfl rfl tree
  have opened : World.openFile ⟨tree, ""⟩ ⟨"keys.h"⟩ =
      (⟨tree.put [".", "keys.h"] (.file []), ""⟩, .ok [".", "keys.h"]) := by
    rfl
  have failed : World.openFile
      ⟨tree.put [".", "keys.h"] (.file []), ""⟩ ⟨"out"⟩ =
        (⟨tree.put [".", "keys.h"] (.file []), ""⟩,
          .error (.creating ⟨"out"⟩ .isADirectory)) := by
    rfl
  have stops := World.StopsAt.later units.declarations opened
    (.here units.definitions [] failed)
  refine ⟨_, _, _, units, accepted, reaches, rfl, rfl, rfl,
    stops.not_opensAll, ?_⟩
  rw [run_of_stopsAt accepted reaches (GenerateOptions.unitEffects_of_different
    rfl rfl (by rfl) units) stops]
  rw [stops.empties.sameFiles_iff]
  decide

end Command
end WordSwitch
