import WordSwitch.Proofs.Program.Operands

/-!
# Running the text

Running the sequence of some code ends as running the code does.  The text seeks
a constant only if there is one to be found, while code passes over all that are
different, so the two seek what leads to the same place.
-/

namespace WordSwitch

open Source

namespace Program

/-- How a run of the text ends if a run of what it was made from ends in some
way. -/
def Outcome.ending (config : CodeConfig) : Outcome → Ending
  | returned label => .returned (config.path label)
  | left => .left
  | finished => .finished
  | undefined => .undefined

/-- What a run of the text seeks in code whose constants have some width, if a
run of the code seeks a value. -/
inductive Seeks (platform : Platform) (width : Nat) (code : Code) :
    Option Sought → Option Nat → Prop
  | nothing : Seeks platform width code none none
  | constant (value : Nat) :
    Seeks platform width code
      (some (.constant (.ofBits (8 * width)) value)) (some value)
  | otherwise
      (value : Nat)
      (absent : ∀ chunk ∈ code.constants, platform.constant chunk ≠ value) :
    Seeks platform width code (some .otherwise) (some value)

/-- What is sought in some code is sought in what is left of it. -/
theorem Seeks.next
    {platform : Platform}
    {width : Nat}
    {code next : Code}
    {goal : Option Sought}
    {sought : Option Nat}
    (seeks : Seeks platform width code goal sought)
    (remaining : ∀ chunk ∈ next.constants, chunk ∈ code.constants) :
    Seeks platform width next goal sought := by
  cases seeks with
  | nothing => exact .nothing
  | constant value => exact .constant value
  | otherwise value absent =>
    exact .otherwise value fun chunk listed =>
      absent chunk (remaining chunk listed)

theorem constants_sequence (config : CodeConfig) (code : Code) :
    (code.sequence config).constants = code.constants.map constantTerm := by
  induction code with
  | nil => rfl
  | unused next hypothesis => exact hypothesis
  | answer label next hypothesis => exact hypothesis
  | leave next hypothesis => exact hypothesis
  | switch subject body next _ hypothesis => exact hypothesis
  | constant chunk next hypothesis =>
    rw [Code.sequence, Sequence.constants, hypothesis]
    rfl

section

variable
  {environment : Environment}
  {config : CodeConfig}
  {wideWidths : List Nat}
  {macros : List Macro}
  (serves : Serves environment config wideWidths macros)
  (definitions : Program.Definitions)
  (input : Bytes)

include serves

/-- The constants in the body of a switch have the values of their chunks. -/
theorem constant?_of_mem
    {length width : Nat}
    {code : Code}
    (fits : code.Fits length width)
    (readable : width ∈ Chunk.readableWidths)
    (wide : 1 < width → wideWidths ≠ [])
    {chunk : Bytes}
    (listed : chunk ∈ code.constants) :
    (textMachine environment macros config wideWidths definitions input).constant?
        (.ofBits (8 * width)) (constantTerm chunk) =
      some (environment.platform.constant chunk) := by
  have chunk_length : chunk.length = width := (fits.of_mem_constants listed).2
  subst chunk_length
  exact constant?_constantTerm serves definitions input readable
    wide

/-- What a switch of the text seeks in its body. -/
theorem exists_sought
    {length width : Nat}
    {body : Code}
    (fits : body.Fits length width)
    (readable : width ∈ Chunk.readableWidths)
    (wide : 1 < width → wideWidths ≠ [])
    (value : Nat) :
    ∃ goal, (body.sequence config).sought?
        (textMachine environment macros config wideWidths definitions input)
        (.ofBits (8 * width)) value = some goal ∧
      Seeks environment.platform width body (some goal) (some value) := by
  have values : (body.sequence config).constants.map
      ((textMachine environment macros config wideWidths definitions
        input).constant? (.ofBits (8 * width))) =
      (body.constants.map environment.platform.constant).map some := by
    rw [constants_sequence, List.map_map, List.map_map]
    exact List.map_congr_left fun chunk listed =>
      constant?_of_mem serves definitions input fits readable wide listed
  refine ⟨_, Sequence.sought?_of_values values value, ?_⟩
  split
  · exact .constant value
  · next unmatched =>
    apply Seeks.otherwise
    rintro chunk listed rfl
    exact unmatched (List.mem_map_of_mem listed)

/-- Running the sequence of some code ends as running the code does. -/
theorem run_sequence
    (fit : definitions.Fit wideWidths)
    (invoke : String → List Value → Ending)
    {length width : Nat}
    {code : Code}
    (fits : code.Fits length width)
    (readable : code.constants ≠ [] → width ∈ Chunk.readableWidths)
    (wide : 1 < width → wideWidths ≠ [])
    (reads : ∀ read ∈ code.widths, 1 < read → read ∈ wideWidths)
    {goal : Option Sought}
    {sought : Option Nat}
    (seeks : Seeks environment.platform width code goal sought) :
    (code.sequence config).run
        (textMachine environment macros config wideWidths definitions input) invoke
        [("string", .pointer 0)] goal =
      (code.run environment.platform input sought).ending config := by
  induction code generalizing width goal sought with
  | nil => cases seeks <;> rfl
  | unused next hypothesis =>
    have later := hypothesis fits readable wide reads
      (seeks.next fun _ listed => listed)
    rw [Code.sequence, Code.run, Sequence.run, later]
  | constant chunk next hypothesis =>
    have later := fun {goal sought} => @hypothesis width fits.2
      (fun _ => readable (List.cons_ne_nil _ _)) wide reads goal sought
    have value := constant?_of_mem serves definitions input fits
      (readable (List.cons_ne_nil _ _)) wide List.mem_cons_self
    have remaining := seeks.next fun other (listed : other ∈ next.constants) =>
      (List.mem_cons_of_mem chunk listed : other ∈ (Code.constant chunk
        next).constants)
    cases seeks with
    | nothing => exact later .nothing
    | constant sought =>
      rw [Code.sequence, Code.run, Sequence.run, value]
      dsimp only
      split
      · exact later .nothing
      · exact later remaining
    | otherwise sought absent =>
      rw [Code.sequence, Code.run, Sequence.run,
        if_neg (absent chunk List.mem_cons_self)]
      exact later remaining
  | answer label next hypothesis =>
    have later := fun {goal sought} =>
      @hypothesis width fits.2 readable wide reads goal sought
    cases seeks with
    | nothing => rfl
    | constant value => exact later (.constant value)
    | otherwise value absent => exact later (.otherwise value absent)
  | leave next hypothesis =>
    have later := fun {goal sought} =>
      @hypothesis width fits readable wide reads goal sought
    cases seeks with
    | nothing => rfl
    | constant value => exact later (.constant value)
    | otherwise value absent => exact later (.otherwise value absent)
  | switch subject body next body_run next_run =>
    obtain ⟨switch_fits, body_fits, next_fits⟩ := fits
    rw [Code.widths_switch, List.cons_append, List.forall_mem_cons,
      List.forall_mem_append] at reads
    obtain ⟨subject_read, body_reads, next_reads⟩ := reads
    have later := fun {goal sought} =>
      @next_run width next_fits readable wide next_reads goal sought
    cases seeks with
    | constant value => exact later (.constant value)
    | otherwise value absent => exact later (.otherwise value absent)
    | nothing =>
      have wide_subject : subject.width ≠ 1 → subject.width ∈ wideWidths :=
        fun many => subject_read
          (Chunk.one_lt_of_mem_readableWidths switch_fits.readable many)
      have body_wide : 1 < subject.width → wideWidths ≠ [] := fun several =>
        List.ne_nil_of_mem (subject_read several)
      have evaluated := evaluate?_term serves definitions input fit
        switch_fits.readable wide_subject
      dsimp only at evaluated
      rw [Code.sequence, Code.run, Sequence.run, evaluated]
      cases subject.value? environment.platform input with
      | none => rfl
      | some value =>
        obtain ⟨goal, sought, seeks⟩ := exists_sought serves definitions input
          body_fits switch_fits.readable body_wide value
        have inside := body_run body_fits (fun _ => switch_fits.readable)
          body_wide body_reads seeks
        simp only [Option.map_some, sought, inside]
        cases body.run environment.platform input (some value) with
        | left => exact later .nothing
        | finished => exact later .nothing
        | returned label => rfl
        | undefined => rfl

end

end Program
end WordSwitch
