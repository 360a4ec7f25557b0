import WordSwitch.Proofs.Program.Simulation

/-!
# Calling the entry function

The entry function calls the function for the length of the input, if there is
one, and returns the fallback if not.  So a call of it ends as the definitions
say.
-/

namespace WordSwitch

open Source

namespace Program

theorem constants_choiceSequence
    (config : CodeConfig)
    (fallback : String)
    (functions : List (Nat × Code)) :
    (choiceSequence config fallback functions).constants =
      functions.map fun pair => .numeral pair.1 false := by
  induction functions with
  | nil => rfl
  | cons pair rest hypothesis =>
    rw [choiceSequence, Sequence.constants, Sequence.constants, hypothesis]
    rfl

section

variable
  {environment : Environment}
  {config : CodeConfig}
  {wideWidths : List Nat}
  {macros : List Macro}

/-- The function for a length is found by its name. -/
theorem function?_lengthFunction
    (macros : List Macro)
    (config : CodeConfig)
    {definitions : Program.Definitions}
    (fit : definitions.Fit wideWidths)
    {length : Nat}
    {code : Code}
    (listed : (length, code) ∈ definitions.functions) :
    (sourceDefinitions macros config wideWidths definitions).function?
        (config.lengthFunction length) =
      some (lengthDefinition config length code) :=
  @function?_of_mem
    (sourceDefinitions macros config wideWidths definitions)
    (nodup_names config fit) (lengthDefinition config length code)
    (List.mem_append_right _ (List.mem_append_left _
      (List.mem_map.mpr ⟨(length, code), listed, rfl⟩)))

/-- Calling the function for a length runs its code. -/
theorem invoke_lengthFunction
    (serves : Serves environment config wideWidths macros)
    {definitions : Program.Definitions}
    (input : Bytes)
    (fit : definitions.Fit wideWidths)
    {length : Nat}
    {code : Code}
    (listed : (length, code) ∈ definitions.functions)
    (depth : Nat) :
    (textMachine environment macros config wideWidths definitions input).invoke
        (depth + 1) (config.lengthFunction length) [.pointer 0] =
      (code.run environment.platform input none).ending config := by
  have found := function?_lengthFunction macros config fit
    listed
  have fits := fit.fits length code listed
  have reads : ∀ read ∈ code.widths, 1 < read → read ∈ wideWidths :=
    fun read present several =>
      (fit.wideWidths read).mpr ⟨several, length, code, listed, present⟩
  have run := fun invoke => run_sequence serves definitions input
    fit invoke fits
    (fun nonempty => absurd fits.constants_eq_nil nonempty)
    (fun impossible => absurd impossible (by decide))
    reads .nothing
  rw [Machine.invoke]
  unfold lengthDefinition at found
  have machine_definitions : (textMachine environment macros config wideWidths
      definitions input).definitions =
      sourceDefinitions macros config wideWidths definitions := rfl
  rw [machine_definitions, found]
  exact run _

theorem constant?_numeral (machine : Machine) (value : Nat) :
    machine.constant? .size (.numeral value false) = some value := by
  by_cases small : value < 2 ^ 31
  · simp only [Machine.constant?, Expression.evaluate?, ofNumeral_small small,
      IntegerType.convert?, if_pos small]
  · simp only [Machine.constant?, Expression.evaluate?, ofNumeral_large small,
      IntegerType.convert?]

/-- Without a constant that is equal the fallback is chosen. -/
theorem run_choiceSequence_otherwise
    (machine : Machine)
    (config : CodeConfig)
    (invoke : String → List Value → Ending)
    (scope : List (String × Value))
    (fallback : String)
    (functions : List (Nat × Code)) :
    (choiceSequence config fallback functions).run machine invoke scope
        (some .otherwise) =
      .returned (config.path fallback) := by
  induction functions with
  | nil => rfl
  | cons pair rest hypothesis => exact hypothesis

/-- The function for the length is chosen if there is one. -/
theorem run_choiceSequence_constant
    (machine : Machine)
    (config : CodeConfig)
    (invoke : String → List Value → Ending)
    {scope : List (String × Value)}
    (string : findIn? "string" scope = some (.pointer 0))
    (fallback : String)
    {functions : List (Nat × Code)}
    {length : Nat}
    {code : Code}
    (found : findIn? length functions = some code) :
    (choiceSequence config fallback functions).run machine invoke scope
        (some (.constant .size length)) =
      invoke (config.lengthFunction length) [.pointer 0] := by
  induction functions with
  | nil => cases found
  | cons pair rest hypothesis =>
    obtain ⟨other, otherCode⟩ := pair
    rw [choiceSequence, Sequence.run, constant?_numeral]
    dsimp only
    by_cases equal : other = length
    · subst equal
      simp [Sequence.run, Expression.evaluate?, string]
    · rw [if_neg equal]
      simp only [findIn?, equal, if_false] at found
      exact hypothesis found

theorem sought?_choiceSequence
    (machine : Machine)
    (config : CodeConfig)
    (fallback : String)
    (functions : List (Nat × Code))
    (length : Nat) :
    (choiceSequence config fallback functions).sought? machine .size length =
      some (if (findIn? length functions).isSome then .constant .size length
        else .otherwise) := by
  have listed : length ∈ functions.map (·.1) ↔
      (findIn? length functions).isSome = true := by
    induction functions with
    | nil => simp [findIn?]
    | cons pair rest hypothesis =>
      rw [List.map_cons, List.mem_cons, hypothesis, findIn?]
      by_cases equal : pair.1 = length
      · simp [equal]
      · simp [equal, Ne.symm equal]
  have values : (choiceSequence config fallback functions).constants.map
      (machine.constant? .size) = (functions.map (·.1)).map some := by
    rw [constants_choiceSequence, List.map_map, List.map_map]
    exact List.map_congr_left fun pair _ => constant?_numeral machine pair.1
  rw [Sequence.sought?_of_values values]
  simp only [listed]

/-- The choice returns what the definitions return. -/
theorem run_entrySequence
    (serves : Serves environment config wideWidths macros)
    {definitions : Program.Definitions}
    (input : Bytes)
    (fit : definitions.Fit wideWidths)
    {label : String}
    (returned : definitions.call environment.platform input =
      .returned label)
    {depth : Nat}
    (deep : definitions.functions.length ≤ depth) :
    (entrySequence config definitions).run
        (textMachine environment macros config wideWidths definitions input)
        ((textMachine environment macros config wideWidths definitions input).invoke
          depth)
        [("string", .pointer 0), ("length", .integer .size input.length)]
        none =
      .returned (config.path label) := by
  have skip : ∀ invoke scope, (entrySequence config definitions).run
      (textMachine environment macros config wideWidths definitions input) invoke scope
      none =
      (Sequence.switch (.name "length") (choiceSequence config
        definitions.fallback definitions.functions) .nil).run
        (textMachine environment macros config wideWidths definitions input) invoke
        scope none := by
    intro invoke scope
    unfold entrySequence
    split <;> rfl
  have subject : (Expression.name "length").evaluate?
      (textMachine environment macros config wideWidths definitions input)
      (textMachine environment macros config wideWidths definitions input).call?
      [("string", .pointer 0), ("length", .integer .size input.length)] =
      some [.integer .size input.length] := rfl
  have string : findIn? "string" [("string", Value.pointer 0),
      ("length", .integer .size input.length)] = some (.pointer 0) := rfl
  rw [skip, Sequence.run, subject]
  dsimp only
  rw [sought?_choiceSequence]
  unfold Definitions.call at returned
  cases found : findIn? input.length definitions.functions with
  | none =>
    rw [found] at returned
    cases returned
    simp only [Option.isSome_none, Bool.false_eq_true, if_false,
      run_choiceSequence_otherwise]
  | some code =>
    rw [found] at returned
    dsimp only at returned
    have listed := OrderedMap.mem_of_findIn? found
    obtain ⟨shallower, rfl⟩ : ∃ shallower, depth = shallower + 1 := by
      have positive := List.length_pos_of_mem listed
      exact ⟨depth - 1, by omega⟩
    have called := invoke_lengthFunction serves input fit listed shallower
    rw [returned] at called
    simp only [Option.isSome_some, if_true,
      run_choiceSequence_constant _ config _ string definitions.fallback found, called]
    rfl

/-- A call of the entry function ends as the definitions say. -/
theorem call_sourceDefinitions
    (serves : Serves environment config wideWidths macros)
    {definitions : Program.Definitions}
    (input : Bytes)
    (fit : definitions.Fit wideWidths)
    {label : String}
    (returned : definitions.call environment.platform input =
      .returned label) :
    (sourceDefinitions macros config wideWidths definitions).call
        environment.platform config.functionName input =
      .returned (config.path label) := by
  have nodup := nodup_names config fit
  have found := @function?_of_mem
    (sourceDefinitions macros config wideWidths definitions) nodup
    (entryDefinition config definitions)
    (List.mem_append_right _ (List.mem_append_right _ List.mem_cons_self))
  have count : (sourceDefinitions macros config wideWidths
      definitions).functions.length =
      wideWidths.length + definitions.functions.length + 1 := by
    simp [sourceDefinitions, sourceFunctions, Nat.add_assoc]
  have run := run_entrySequence serves input fit returned
    (Nat.le_add_left definitions.functions.length wideWidths.length)
  unfold Source.Definitions.call
  rw [count, Machine.invoke]
  unfold entryDefinition at found
  dsimp only at found ⊢
  rw [found]
  exact run

end

end Program
end WordSwitch
