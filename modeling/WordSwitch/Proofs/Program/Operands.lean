import WordSwitch.Proofs.Program.Names

/-!
# The values of generated expressions

The macro puts a byte in its place, so a constant has the value of its chunk in
the type of what its switch depends on.  What a switch depends on has the value
of the bytes that it reads, and none if they are not all there.
-/

namespace WordSwitch

open Source

namespace Program

/-- What the text of some definitions runs on. -/
def textMachine
    (environment : Environment)
    (macros : List Macro)
    (config : CodeConfig)
    (wideWidths : List Nat)
    (definitions : Program.Definitions)
    (input : Bytes) :
    Machine :=
  ⟨environment.platform, input,
    sourceDefinitions macros config wideWidths definitions⟩

/-! ## Numbers -/

theorem ofNumeral_small {value : Nat} (small : value < 2 ^ 31) :
    Value.ofNumeral value false = .integer .int value :=
  if_pos small

theorem ofNumeral_large {value : Nat} (large : ¬ value < 2 ^ 31) :
    Value.ofNumeral value false = .integer .size value :=
  if_neg large

theorem natural?_ofNumeral (value : Nat) :
    (Value.ofNumeral value false).natural? = some value := by
  by_cases small : value < 2 ^ 31
  · rw [ofNumeral_small small, Value.natural?, IntegerType.convert?,
      if_pos small]
  · rw [ofNumeral_large small, Value.natural?, IntegerType.convert?]

theorem Platform.character_mod (platform : Platform) (byte : UInt8) :
    platform.character byte % 256 = byte.toNat := by
  have byte_lt := Platform.toNat_lt_two_pow byte
  unfold Platform.character
  split <;> omega

theorem shiftLeft_mod {byte : UInt8} {amount : Nat} (bound : amount ≤ 56) :
    byte.toNat <<< amount % 2 ^ 64 = byte.toNat <<< amount := by
  have byte_lt := Platform.toNat_lt_two_pow byte
  apply Nat.mod_eq_of_lt
  rw [Nat.shiftLeft_eq]
  calc byte.toNat * 2 ^ amount
    _ < 2 ^ 8 * 2 ^ amount :=
      Nat.mul_lt_mul_of_pos_right byte_lt (Nat.two_pow_pos amount)
    _ ≤ 2 ^ 8 * 2 ^ 56 :=
      Nat.mul_le_mul_left _ (Nat.pow_le_pow_right (by decide) bound)
    _ = 2 ^ 64 := by decide

/-! ## What is read -/

/-- The type of what is read keeps the values that fit. -/
theorem convert?_long
    {width pattern : Nat}
    (readable : width ∈ Chunk.readableWidths)
    (bound : pattern < 2 ^ (8 * width)) :
    (IntegerType.ofBits (8 * width)).convert? .long pattern = some pattern := by
  rcases Chunk.mem_readableWidths_iff.mp readable with rfl | rfl | rfl | rfl
  · have small : pattern % 2 ^ 32 = pattern := by omega
    exact congrArg some small
  · have small : pattern % 2 ^ 32 = pattern := by omega
    exact congrArg some small
  · have small : pattern % 2 ^ 32 = pattern := by omega
    exact congrArg some small
  · rfl

theorem bytes?_of_width_one
    (input : Bytes)
    {subject : Subject}
    (single : subject.width = 1) :
    subject.bytes? input =
      input[subject.offset]?.map fun byte => [byte] := by
  unfold Subject.bytes?
  rw [single]
  by_cases within : subject.offset + 1 ≤ input.length
  · rw [if_pos within, List.getElem?_eq_getElem within,
      List.drop_eq_getElem_cons within]
    rfl
  · rw [if_neg within, List.getElem?_eq_none (by omega)]
    rfl

/-- The mask keeps the type of what is read. -/
theorem operate?_mask
    {width : Nat}
    (readable : width ∈ Chunk.readableWidths)
    (pattern : Nat) :
    (Value.integer (.ofBits (8 * width)) pattern).operate? .or
        (.ofNumeral (Chunk.foldMask width) (width == 8)) =
      some (.integer (.ofBits (8 * width))
        (pattern ||| Chunk.foldMask width)) := by
  rcases Chunk.mem_readableWidths_iff.mp readable with rfl | rfl | rfl | rfl <;> rfl

section

variable
  {environment : Environment}
  {config : CodeConfig}
  {wideWidths : List Nat}
  {macros : List Macro}
  (serves : Serves environment config wideWidths macros)
  (definitions : Program.Definitions)
  (input : Bytes)

include serves

/-! ## The macro -/

/-- The macro puts a byte in its place. -/
theorem expand?_placeMacro
    (wide : wideWidths ≠ [])
    {bits shift : Nat}
    (shift_le : shift + 8 ≤ bits)
    (bits_le : bits ≤ 64)
    (byte : UInt8) :
    (textMachine environment macros config wideWidths definitions input).expand?
        placeMacro
        [.integer .int (environment.platform.character byte),
          .integer .int shift, .integer .int bits] =
      some (.integer .long (environment.platform.placed bits shift byte)) := by
  have found : (textMachine environment macros config wideWidths definitions
      input).definitions.macro? placeMacro =
      some (placeDefinition environment.platform.isBigEndian) :=
    serves.place wide
  have byte_lt := Platform.toNat_lt_two_pow byte
  have byte_small : byte.toNat < 2 ^ 31 := by omega
  have shift_small : shift < 2 ^ 31 := by omega
  have bits_small : bits < 2 ^ 31 := by omega
  have place_small : bits - 8 - shift < 2 ^ 31 := by omega
  have eight_le : 8 ≤ bits := by omega
  have shift_le' : shift ≤ bits - 8 := by omega
  have rest_small : bits - 8 < 2 ^ 31 := by omega
  have eight : Value.ofNumeral 8 false = .integer .int 8 := rfl
  rw [Machine.expand?, found]
  unfold placeDefinition Platform.placed
  dsimp only
  cases environment.platform.isBigEndian with
  | true =>
    have amount : bits - 8 - shift < 64 := by omega
    have bound : bits - 8 - shift ≤ 56 := by omega
    simp [-Nat.reducePow, Expression.evaluate?, findIn?, Value.cast?,
      IntegerType.convert?, Platform.character_mod, byte_small, Value.operate?,
      eight, eight_le, bits_small, shift_le', rest_small, Value.natural?,
      place_small, amount, shiftLeft_mod bound]
  | false =>
    have amount : shift < 64 := by omega
    have bound : shift ≤ 56 := by omega
    simp [-Nat.reducePow, Expression.evaluate?, findIn?, Value.cast?,
      IntegerType.convert?, Platform.character_mod, byte_small, Value.operate?,
      Value.natural?, shift_small, amount, shiftLeft_mod bound]

/-! ## Constants -/

theorem evaluate?_placedTerm
    (wide : wideWidths ≠ [])
    {bits shift : Nat}
    (shift_le : shift + 8 ≤ bits)
    (bits_le : bits ≤ 64)
    (byte : UInt8) :
    let machine := textMachine environment macros config wideWidths definitions input
    (placedTerm bits shift byte).evaluate? machine machine.expand? [] =
      some [.integer .long (environment.platform.placed bits shift byte)] := by
  have expanded := expand?_placeMacro serves definitions input wide
    shift_le bits_le byte
  have shift_small : shift < 2 ^ 31 := by omega
  have bits_small : bits < 2 ^ 31 := by omega
  simp only [placedTerm, Expression.evaluate?, ofNumeral_small shift_small,
    ofNumeral_small bits_small, List.singleton_append, Option.bind_some]
  have arguments : [Value.integer .int (environment.platform.character byte),
      .integer .int shift] ++ [Value.integer .int bits] =
      [.integer .int (environment.platform.character byte),
        .integer .int shift, .integer .int bits] := rfl
  have platform : (textMachine environment macros config wideWidths definitions
    input).platform = environment.platform := rfl
  rw [platform, arguments, expanded]
  rfl

/-- Further parts are combined with what earlier parts stand for. -/
theorem evaluate?_laterPartsTerm
    (wide : wideWidths ≠ [])
    {bits shift : Nat}
    {bytes : Bytes}
    (shift_le : shift + 8 * bytes.length ≤ bits)
    (bits_le : bits ≤ 64)
    {earlier : Expression}
    {pattern : Nat}
    (evaluated :
      let machine := textMachine environment macros config wideWidths definitions input
      earlier.evaluate? machine machine.expand? [] =
        some [.integer .long pattern]) :
    let machine := textMachine environment macros config wideWidths definitions input
    (laterPartsTerm bits shift bytes earlier).evaluate? machine machine.expand?
        [] =
      some [.integer .long
        (pattern ||| environment.platform.wideConstant bits shift bytes)] := by
  induction bytes generalizing shift earlier pattern with
  | nil => simpa [laterPartsTerm, Platform.wideConstant] using evaluated
  | cons byte rest hypothesis =>
    rw [List.length_cons] at shift_le
    have placed := evaluate?_placedTerm serves definitions input
      wide (show shift + 8 ≤ bits by omega) bits_le byte
    have combined :
        let machine :=
          textMachine environment macros config wideWidths definitions input
        (Expression.binary .or earlier
            (placedTerm bits shift byte)).evaluate? machine machine.expand? [] =
          some [.integer .long
            (pattern ||| environment.platform.placed bits shift byte)] := by
      dsimp only at evaluated placed ⊢
      simp only [Expression.evaluate?, evaluated, placed]
      rfl
    have later := hypothesis
      (show shift + 8 + 8 * rest.length ≤ bits by omega) combined
    rw [laterPartsTerm, Platform.wideConstant, ← Nat.or_assoc]
    exact later

/-- A constant has the value of its chunk. -/
theorem constant?_constantTerm
    {chunk : Bytes}
    (readable : chunk.length ∈ Chunk.readableWidths)
    (wide : 1 < chunk.length → wideWidths ≠ []) :
    (textMachine environment macros config wideWidths definitions input).constant?
        (.ofBits (8 * chunk.length)) (constantTerm chunk) =
      some (environment.platform.constant chunk) := by
  have length_le := Chunk.le_of_mem_readableWidths readable
  match chunk with
  | [] => exact absurd readable (by decide)
  | [byte] => rfl
  | first :: second :: rest =>
    have bits_le : 8 * (first :: second :: rest).length ≤ 64 := by omega
    have widePresent := wide (by simp)
    have evaluated := evaluate?_laterPartsTerm serves definitions
      input widePresent
      (show 8 + 8 * (second :: rest).length ≤
        8 * (first :: second :: rest).length by simp; omega)
      bits_le
      (evaluate?_placedTerm serves definitions input widePresent
        (show 0 + 8 ≤ 8 * (first :: second :: rest).length by
          rw [List.length_cons]
          omega)
        bits_le first)
    have value_lt : environment.platform.constant (first :: second :: rest) <
        2 ^ (8 * (first :: second :: rest).length) := by
      rw [Platform.constant_eq_read]
      exact Platform.memory_lt _ _
    have term : constantTerm (first :: second :: rest) =
        laterPartsTerm (8 * (first :: second :: rest).length) 8 (second :: rest)
          (placedTerm (8 * (first :: second :: rest).length) 0 first) := rfl
    have value : environment.platform.placed
        (8 * (first :: second :: rest).length) 0 first |||
        environment.platform.wideConstant
          (8 * (first :: second :: rest).length) 8 (second :: rest) =
        environment.platform.constant (first :: second :: rest) := rfl
    dsimp only at evaluated
    rw [Machine.constant?, term, evaluated, value]
    exact convert?_long readable value_lt

/-! ## What switches depend on -/

/-- A call of a function that reads several bytes. -/
theorem call?_loadFunction
    (fit : definitions.Fit wideWidths)
    {width : Nat}
    (listed : width ∈ wideWidths)
    (offset : Nat) :
    let machine := textMachine environment macros config wideWidths definitions input
    machine.call? (config.loadFunction (8 * width)) [.pointer offset] =
      machine.load? (8 * width) offset := by
  have found := function?_of_mem
    (show ((sourceDefinitions macros config wideWidths
      definitions).functions.map Function.name).Nodup from
        nodup_names config fit)
    (show loadDefinition config width ∈ _ from
      List.mem_append_left _ (List.mem_map_of_mem listed))
  have named : (loadDefinition config width).name =
      config.loadFunction (8 * width) := rfl
  rw [named] at found
  have noMacro : (textMachine environment macros config wideWidths definitions
      input).definitions.macro? (config.loadFunction (8 * width)) = none :=
    serves.loads (8 * width)
  have copies : (textMachine environment macros config wideWidths definitions
      input).definitions.function? (config.loadFunction (8 * width)) =
      some (loadDefinition config width) := found
  unfold Machine.call?
  dsimp only
  rw [noMacro, if_neg (by simp), copies]
  exact if_pos rfl

/-- The bytes that a switch reads. -/
theorem evaluate?_readTerm
    (fit : definitions.Fit wideWidths)
    {subject : Subject}
    (wide : subject.width ≠ 1 → subject.width ∈ wideWidths) :
    let machine := textMachine environment macros config wideWidths definitions input
    (subject.readTerm config).evaluate? machine machine.call?
        [("string", .pointer 0)] =
      (subject.bytes? input).map fun chunk =>
        [.integer (.ofBits (8 * subject.width))
          (environment.platform.read chunk)] := by
  have position := natural?_ofNumeral subject.offset
  have string : findIn? "string" [("string", Value.pointer 0)] =
      some (.pointer 0) := rfl
  unfold Subject.readTerm
  by_cases single : subject.width = 1
  · rw [if_pos single, bytes?_of_width_one input single, single]
    simp only [Expression.evaluate?, string, position, Option.bind_some,
      Nat.zero_add, Option.map_map]
    rfl
  · have called := call?_loadFunction serves definitions input fit
      (wide single) subject.offset
    have width_eq : 8 * subject.width / 8 = subject.width := by omega
    rw [if_neg single]
    simp only [Expression.evaluate?, string, Option.map_some,
      Value.operate?, position, Option.bind_some, Nat.zero_add] at called ⊢
    rw [called, Machine.load?, width_eq]
    unfold Subject.bytes? textMachine
    dsimp only
    split
    · next within =>
      have read_length : ((input.drop subject.offset).take
          subject.width).length ≠ 1 := by
        rw [List.length_take, List.length_drop]
        omega
      rw [Option.map_some, Option.map_some,
        Platform.read_of_length_ne_one _ read_length]
    · rfl

/-- What a switch depends on. -/
theorem evaluate?_term
    (fit : definitions.Fit wideWidths)
    {subject : Subject}
    (readable : subject.width ∈ Chunk.readableWidths)
    (wide : subject.width ≠ 1 → subject.width ∈ wideWidths) :
    let machine := textMachine environment macros config wideWidths definitions input
    (subject.term config).evaluate? machine machine.call?
        [("string", .pointer 0)] =
      (subject.value? environment.platform input).map fun value =>
        [.integer (.ofBits (8 * subject.width)) value] := by
  have read := evaluate?_readTerm serves definitions input fit wide
  unfold Subject.term Subject.value?
  cases subject.isFolded with
  | false =>
    simp only [Bool.false_eq_true, if_false, Option.map_map]
    exact read
  | true =>
    dsimp only at read ⊢
    simp only [if_true, Expression.evaluate?, read, Option.map_map]
    cases subject.bytes? input with
    | none => rfl
    | some chunk =>
      simp only [Option.map_some, operate?_mask readable, Function.comp_apply]

end

end Program
end WordSwitch
