import WordSwitch.Command.Effect
import WordSwitch.Proofs.File.Tree

/-!
# Saving files

Files that are saved together are opened one after another, which empties each
of them, and written only when all of them are open.  If one of them cannot be
opened, those before it stay empty, and all others are as they were.
-/

namespace WordSwitch
namespace Command
namespace World

open FileTree (SameFiles overwrite)

variable {world next after : World} {path : Path} {place : Location}

/-! ## Opening -/

/-- A file that cannot be opened changes no file. -/
theorem openFile_eq_error
    {failure : Failure}
    (failed : world.openFile path = (after, .error failure)) :
    SameFiles world.tree after.tree ∧ after.printed = world.printed := by
  unfold openFile at failed
  split at failed
  · cases failed
    exact ⟨.refl _, rfl⟩
  · next made =>
    split at failed
    · cases failed
      exact ⟨FileTree.sameFiles_makeParents made, rfl⟩
    · cases failed

/-- Some places hold empty files, and the others hold what they did. -/
structure Empties
    (before : World)
    (places : List Location)
    (after : World) :
    Prop where
  empty : ∀ place ∈ places, after.tree.content? place = some []
  others : ∀ place, place ∉ places →
    after.tree.content? place = before.tree.content? place
  printed : after.printed = before.printed

/-- A file that is opened is empty afterwards. -/
theorem openFile_eq_ok
    (opened : world.openFile path = (after, .ok place)) :
    Empties world [place] after := by
  unfold openFile at opened
  split at opened
  · cases opened
  · next made =>
    split at opened
    · cases opened
    · next created =>
      cases opened
      obtain ⟨inner, rfl⟩ := FileTree.create_eq_ok created
      refine ⟨?_, ?_, rfl⟩
      · rintro other (_ | ⟨_, ⟨⟩⟩)
        exact FileTree.content?_put_file_self _ inner []
      · intro other elsewhere
        have different := fun here => elsewhere (List.mem_singleton.mpr here)
        exact (FileTree.content?_put_of_ne _ different _).trans
          (FileTree.sameFiles_makeParents made other)

namespace Empties

theorem of_sameFiles
    (kept : SameFiles world.tree after.tree)
    (printed : after.printed = world.printed) :
    Empties world [] after :=
  ⟨fun _ listed => absurd listed List.not_mem_nil, fun place _ => kept place,
    printed⟩

theorem trans
    {former latter : List Location}
    (first : Empties world former next)
    (second : Empties next latter after) :
    Empties world (former ++ latter) after := by
  refine ⟨?_, ?_, second.printed.trans first.printed⟩
  · intro place listed
    by_cases again : place ∈ latter
    · exact second.empty place again
    · rw [second.others place again]
      exact first.empty place ((List.mem_append.mp listed).resolve_right again)
  · intro place elsewhere
    rw [List.mem_append, not_or] at elsewhere
    rw [second.others place elsewhere.2, first.others place elsewhere.1]

/-- All files are kept exactly if those that are emptied were there and
empty. -/
theorem sameFiles_iff
    {places : List Location}
    (empties : Empties world places after) :
    SameFiles world.tree after.tree ↔
      ∀ place ∈ places, world.tree.content? place = some [] := by
  constructor
  · intro kept place listed
    rw [← kept place, empties.empty place listed]
  · intro empty place
    by_cases listed : place ∈ places
    · rw [empties.empty place listed, empty place listed]
    · exact empties.others place listed

end Empties

/-! ## Opening several files -/

/-- Some files are opened one after another, each with the text for it. -/
inductive OpensAll :
    World → List (Path × String) → World → List (Location × String) → Prop
  | nil (world : World) : OpensAll world [] world []
  | cons
      {world next after : World}
      {path : Path}
      {place : Location}
      {rest : List (Path × String)}
      {places : List (Location × String)}
      (text : String)
      (opened : world.openFile path = (next, .ok place))
      (others : OpensAll next rest after places) :
      OpensAll world ((path, text) :: rest) after ((place, text) :: places)

/-- Some files are opened one after another, up to one that cannot be
opened. -/
inductive StopsAt :
    World → List (Path × String) → World → List Location → Failure → Prop
  | here
      {world after : World}
      {path : Path}
      {failure : Failure}
      (text : String)
      (rest : List (Path × String))
      (failed : world.openFile path = (after, .error failure)) :
      StopsAt world ((path, text) :: rest) after [] failure
  | later
      {world next after : World}
      {path : Path}
      {place : Location}
      {rest : List (Path × String)}
      {places : List Location}
      {failure : Failure}
      (text : String)
      (opened : world.openFile path = (next, .ok place))
      (stops : StopsAt next rest after places failure) :
      StopsAt world ((path, text) :: rest) after (place :: places) failure

theorem OpensAll.exists_of_cons
    {text : String}
    {rest : List (Path × String)}
    {places : List (Location × String)}
    (opens : OpensAll world ((path, text) :: rest) after places) :
    ∃ next place others, world.openFile path = (next, .ok place) ∧
      OpensAll next rest after others ∧ places = (place, text) :: others := by
  cases opens with
  | cons _ opened others => exact ⟨_, _, _, opened, others, rfl⟩

theorem OpensAll.eq_of_nil
    {places : List (Location × String)}
    (opens : OpensAll world [] after places) :
    after = world ∧ places = [] := by
  cases opens
  exact ⟨rfl, rfl⟩

theorem OpensAll.empties
    {files : List (Path × String)}
    {places : List (Location × String)}
    (opens : OpensAll world files after places) :
    Empties world (places.map (·.1)) after := by
  induction opens with
  | nil world => exact .of_sameFiles (.refl _) rfl
  | cons text opened _ hypothesis =>
    exact (openFile_eq_ok opened).trans hypothesis

theorem StopsAt.empties
    {files : List (Path × String)}
    {places : List Location}
    {failure : Failure}
    (stops : StopsAt world files after places failure) :
    Empties world places after := by
  induction stops with
  | here text rest failed =>
    obtain ⟨kept, printed⟩ := openFile_eq_error failed
    exact .of_sameFiles kept printed
  | later text opened _ hypothesis =>
    exact (openFile_eq_ok opened).trans hypothesis

theorem OpensAll.saveAll
    {files : List (Path × String)}
    {places : List (Location × String)}
    (opens : OpensAll world files after places)
    (opened : List (Location × String)) :
    world.saveAll opened files = (after.writeAll (opened ++ places), none) := by
  induction opens generalizing opened with
  | nil world => simp [World.saveAll]
  | cons text opens _ hypothesis =>
    simp [World.saveAll, opens, hypothesis]

theorem StopsAt.saveAll
    {files : List (Path × String)}
    {places : List Location}
    {failure : Failure}
    (stops : StopsAt world files after places failure)
    (opened : List (Location × String)) :
    world.saveAll opened files = (after, some failure) := by
  induction stops generalizing opened with
  | here text rest failed => simp [World.saveAll, failed]
  | later text opens _ hypothesis => simp [World.saveAll, opens, hypothesis]

theorem StopsAt.not_opensAll
    {files : List (Path × String)}
    {places : List Location}
    {failure : Failure}
    (stops : StopsAt world files after places failure) :
    ¬∃ other places, OpensAll world files other places := by
  rintro ⟨other, otherPlaces, opens⟩
  induction stops generalizing otherPlaces with
  | here text rest failed =>
    cases opens with
    | cons _ opened _ => simp [failed] at opened
  | later text opened _ hypothesis =>
    cases opens with
    | cons _ again others =>
      rw [opened] at again
      cases again
      exact hypothesis _ others

/-- All files are opened, or one of them cannot be. -/
theorem opensAll_or_stopsAt (world : World) (files : List (Path × String)) :
    (∃ after places, OpensAll world files after places) ∨
      ∃ after places failure, StopsAt world files after places failure := by
  induction files generalizing world with
  | nil => exact .inl ⟨world, [], .nil world⟩
  | cons file rest hypothesis =>
    obtain ⟨path, text⟩ := file
    cases opened : world.openFile path with
    | mk next result =>
      cases result with
      | error failure => exact .inr ⟨next, [], failure, .here text rest opened⟩
      | ok place =>
        obtain ⟨after, places, opens⟩ | ⟨after, places, failure, stops⟩ :=
          hypothesis next
        · exact .inl ⟨after, _, .cons text opened opens⟩
        · exact .inr ⟨after, _, failure, .later text opened stops⟩

/-! ## Writing -/

/-- What becomes of the content at a place when texts are written to some
files, one over the other. -/
def written
    (place : Location)
    (content : Bytes)
    (files : List (Location × String)) :
    Bytes :=
  files.foldl (fun content file =>
    if file.1 = place then overwrite content (Bytes.ofString file.2)
    else content) content

/-- Writing changes each content by the texts for its place. -/
theorem content?_writeAll
    (world : World)
    (files : List (Location × String))
    (place : Location) :
    (world.writeAll files).tree.content? place =
      (world.tree.content? place).map (written place · files) := by
  unfold writeAll written
  generalize world.tree = tree
  induction files generalizing tree with
  | nil => simp
  | cons file rest hypothesis =>
    obtain ⟨location, text⟩ := file
    rw [List.foldl_cons, hypothesis, FileTree.content?_write]
    by_cases here : location = place
    · subst here
      simp [Function.comp_def]
    · simp [here, Ne.symm here]

/-- When some files have been saved, each place that was opened holds what was
written to it. -/
theorem OpensAll.content?_saved
    {files : List (Path × String)}
    {places : List (Location × String)}
    (opens : OpensAll world files after places)
    (place : Location)
    (listed : place ∈ places.map (·.1)) :
    (after.writeAll places).tree.content? place =
      some (written place [] places) := by
  rw [content?_writeAll, opens.empties.empty place listed]
  rfl

/-! ## Several effects -/

/-- Effects are performed one part after another, up to the first that
fails. -/
theorem performAll_append (world : World) (first second : List Effect) :
    world.performAll (first ++ second) =
      match world.performAll first with
      | (next, none) => next.performAll second
      | (next, some failure) => (next, some failure) := by
  induction first generalizing world with
  | nil => rfl
  | cons effect rest hypothesis =>
    simp only [List.cons_append, performAll]
    split
    · exact hypothesis _
    · rfl

theorem exists_of_performAll_append
    {first second : List Effect}
    (performed : world.performAll (first ++ second) = (after, none)) :
    ∃ next, world.performAll first = (next, none) ∧
      next.performAll second = (after, none) := by
  rw [performAll_append] at performed
  split at performed
  · next middle first_performed => exact ⟨middle, first_performed, performed⟩
  · cases performed

/-- Files that have been saved were all opened. -/
theorem exists_opensAll_of_performAll
    {files : List (Path × String)}
    {rest : List Effect}
    (performed : world.performAll (.save files :: rest) = (after, none)) :
    ∃ opened places, OpensAll world files opened places ∧
      (opened.writeAll places).performAll rest = (after, none) := by
  rw [performAll, perform] at performed
  obtain ⟨opened, places, opens⟩ | ⟨opened, places, failure, stops⟩ :=
    opensAll_or_stopsAt world files
  · rw [opens.saveAll] at performed
    exact ⟨opened, places, opens, performed⟩
  · rw [stops.saveAll] at performed
    cases performed

/-- A file that has been saved holds its text. -/
theorem exists_saved_of_performAll
    {text : String}
    {rest : List Effect}
    (performed :
      world.performAll (.save [(path, text)] :: rest) = (after, none)) :
    ∃ opened place, ∃ saved : World,
      world.openFile path = (opened, .ok place) ∧
      saved.performAll rest = (after, none) ∧
      saved.tree.content? place = some (Bytes.ofString text) ∧
      saved.printed = world.printed := by
  obtain ⟨opened, places, opens, performed⟩ :=
    exists_opensAll_of_performAll performed
  have content := opens.content?_saved
  have printed := opens.empties.printed
  obtain ⟨last, place, _, place_opened, ends, rfl⟩ := opens.exists_of_cons
  obtain ⟨rfl, rfl⟩ := ends.eq_of_nil
  refine ⟨opened, place, _, place_opened, performed, ?_, printed⟩
  exact (content place (by simp)).trans (by simp [written])

end World
end Command
end WordSwitch
