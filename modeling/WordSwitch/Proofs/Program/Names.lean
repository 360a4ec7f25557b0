import Mathlib.Data.List.Nodup
import WordSwitch.Proofs.Program.Functions
import WordSwitch.Proofs.Source.Lexing

/-!
# Names of generated functions

No two generated functions have the same name, so each is found by its own
name, and no function is named like the macro.
-/

namespace WordSwitch

open Source

namespace Program

theorem toString_injective {first second : Nat}
    (equal : toString first = toString second) :
    first = second := by
  have digits : Nat.toDigits 10 first = Nat.toDigits 10 second := by
    have lists := congrArg String.toList equal
    simpa [Nat.toString_eq_ofList_toDigits] using lists
  have numbers := congrArg (Token.number? 10) digits
  rw [number?_toDigits, number?_toDigits] at numbers
  exact Option.some.inj numbers

theorem append_left_cancel {name first second : String}
    (equal : name ++ first = name ++ second) :
    first = second := by
  have lists := congrArg String.toList equal
  rw [String.toList_append, String.toList_append] at lists
  exact String.toList_inj.mp (List.append_cancel_left lists)

theorem toString_ne_empty (number : Nat) : toString number ≠ "" := by
  intro empty
  have digits := congrArg String.toList empty
  rw [Nat.toString_eq_ofList_toDigits, String.toList_ofList] at digits
  exact Nat.toDigits_ne_nil digits

section

variable (config : CodeConfig)

theorem lengthFunction_eq (length : Nat) :
    config.lengthFunction length = config.functionName ++ toString length := rfl

theorem loadFunction_eq (bits : Nat) :
    config.loadFunction bits =
      config.functionName ++ ("_load" ++ toString bits) := by
  rw [← String.append_assoc]
  rfl

theorem lengthFunction_injective {first second : Nat}
    (equal : config.lengthFunction first = config.lengthFunction second) :
    first = second :=
  toString_injective (append_left_cancel equal)

theorem loadFunction_injective {first second : Nat}
    (equal : config.loadFunction first = config.loadFunction second) :
    first = second :=
  toString_injective (append_left_cancel equal)

theorem lengthFunction_ne_functionName (length : Nat) :
    config.lengthFunction length ≠ config.functionName := by
  intro equal
  rw [lengthFunction_eq] at equal
  have suffix : config.functionName ++ toString length =
      config.functionName ++ "" := by
    rw [equal, String.append_empty]
  exact toString_ne_empty length (append_left_cancel suffix)

theorem loadFunction_ne_functionName (bits : Nat) :
    config.loadFunction bits ≠ config.functionName := by
  intro equal
  rw [loadFunction_eq] at equal
  have suffix : config.functionName ++ ("_load" ++ toString bits) =
      config.functionName ++ "" := by
    rw [equal, String.append_empty]
  have lists := congrArg String.toList (append_left_cancel suffix)
  simp at lists

/-- One goes on with an underscore where the other goes on with a digit. -/
theorem loadFunction_ne_lengthFunction (bits length : Nat) :
    config.loadFunction bits ≠ config.lengthFunction length := by
  intro equal
  rw [loadFunction_eq, lengthFunction_eq] at equal
  have lists := congrArg String.toList (append_left_cancel equal)
  have underscore : '_' ∈ (toString length).toList := by
    rw [← lists]
    simp
  have impossible := isDigit_of_mem_toString underscore
  revert impossible
  decide

/-- A name in front of a number ends with a digit. -/
theorem append_toString_ne
    (name : String)
    (number : Nat)
    {other : String}
    (last : other.toList.getLast?.any Char.isDigit = false) :
    name ++ toString number ≠ other := by
  rintro rfl
  have nonempty : (toString number).toList ≠ [] := by
    intro empty
    exact toString_ne_empty number (String.toList_inj.mp empty)
  rw [String.toList_append, List.getLast?_append_of_ne_nil _ nonempty] at last
  obtain ⟨start, digit, digits⟩ := List.eq_nil_or_concat'
    (toString number).toList |>.resolve_left nonempty
  have isDigit : digit.isDigit = true :=
    isDigit_of_mem_toString (digits ▸ List.mem_append_right _ (by simp))
  rw [digits, List.getLast?_concat, Option.any_some, isDigit] at last
  cases last

theorem loadFunction_ne
    (bits : Nat)
    {other : String}
    (last : other.toList.getLast?.any Char.isDigit = false) :
    config.loadFunction bits ≠ other :=
  append_toString_ne (config.functionName ++ "_load") bits last

end

/-! ## Finding macros -/

/-- Macros among which those of the text are found. -/
structure Serves
    (environment : Environment)
    (config : CodeConfig)
    (wideWidths : List Nat)
    (macros : List Macro) :
    Prop where
  /-- Bytes are put in their places if several are read at once. -/
  place : wideWidths ≠ [] → macros.find? (·.name == placeMacro) =
    some (placeDefinition environment.platform.isBigEndian)
  /-- No macro is named like a function that reads several bytes. -/
  loads : ∀ bits, macros.find? (·.name == config.loadFunction bits) = none

/-- The macros that are defined after the definitions serve them, unless the
place is taken. -/
theorem serves_placeMacros
    (environment : Environment)
    {config : CodeConfig}
    {wideWidths : List Nat}
    {before : List Macro}
    (apart : ∀ bits, before.find? (·.name == config.loadFunction bits) = none)
    (untaken : wideWidths ≠ [] →
      before.any (·.name == placeMacro) = false) :
    Serves environment config wideWidths
      (placeMacros environment before wideWidths) := by
  unfold placeMacros
  constructor
  · intro wide
    rw [untaken wide, List.isEmpty_eq_false_iff.mpr wide]
    exact List.find?_cons_of_pos rfl
  · intro bits
    split
    · exact apart bits
    · have noDigit : placeMacro.toList.getLast?.any Char.isDigit = false := by
        decide
      have different := (loadFunction_ne config bits noDigit).symm
      rw [List.find?_cons_of_neg (by simpa [Macro.name, placeDefinition]
        using different)]
      exact apart bits

/-! ## Finding functions -/

/-- No two functions have the same name. -/
theorem nodup_names
    (config : CodeConfig)
    {wideWidths : List Nat}
    {definitions : Program.Definitions}
    (fit : definitions.Fit wideWidths) :
    ((sourceFunctions config wideWidths definitions).map
      Function.name).Nodup := by
  have names : (sourceFunctions config wideWidths definitions).map
      Function.name =
      wideWidths.map (fun width => config.loadFunction (8 * width)) ++
        ((definitions.functions.map (·.1)).map config.lengthFunction ++
          [config.functionName]) := by
    simp [sourceFunctions, loadDefinition, lengthDefinition, entryDefinition,
      Function.comp_def]
  have loads : (wideWidths.map fun width =>
      config.loadFunction (8 * width)).Nodup := by
    refine fit.nodup.map ?_
    intro first second equal
    have bits := loadFunction_injective config equal
    omega
  have lengths : ((definitions.functions.map (·.1)).map
      config.lengthFunction).Nodup :=
    fit.lengths.map fun _ _ => lengthFunction_injective config
  rw [names, List.nodup_append, List.nodup_append]
  refine ⟨loads, ⟨lengths, List.nodup_singleton _, ?_⟩, ?_⟩
  · intro name inLengths other isEntry
    obtain ⟨length, _, rfl⟩ := List.mem_map.mp inLengths
    rw [List.mem_singleton.mp isEntry]
    exact lengthFunction_ne_functionName config length
  · intro name inLoads other later
    obtain ⟨width, _, rfl⟩ := List.mem_map.mp inLoads
    rcases List.mem_append.mp later with inLengths | isEntry
    · obtain ⟨length, _, rfl⟩ := List.mem_map.mp inLengths
      exact loadFunction_ne_lengthFunction config (8 * width) length
    · rw [List.mem_singleton.mp isEntry]
      exact loadFunction_ne_functionName config (8 * width)

/-- What is found under the name of a function is that function. -/
theorem function?_of_mem
    {definitions : Source.Definitions}
    (nodup : (definitions.functions.map Function.name).Nodup)
    {function : Function}
    (listed : function ∈ definitions.functions) :
    definitions.function? function.name = some function := by
  obtain ⟨macros, functions, headings⟩ := definitions
  unfold Source.Definitions.function?
  dsimp only at nodup listed ⊢
  induction functions with
  | nil => cases listed
  | cons first rest hypothesis =>
    rw [List.map_cons, List.nodup_cons] at nodup
    rcases List.mem_cons.mp listed with rfl | inRest
    · simp
    · have different : first.name ≠ function.name := by
        intro equal
        apply nodup.1
        rw [equal]
        exact List.mem_map_of_mem inRest
      rw [List.find?_cons_of_neg (by simpa using different)]
      exact hypothesis nodup.2 inRest

end Program
end WordSwitch
