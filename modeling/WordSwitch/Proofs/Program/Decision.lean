import WordSwitch.Proofs.Program.Correctness

/-!
# The decision at a node

A node of a trie compares the bytes that it reads one by one with the key of an
edge.  The switch that is generated for it compares integers instead: the bytes
are read at once, perhaps with the mask, and the constants are put together from
the bytes of the key.  Both decide the same, for each comparison, each width that
a single read supports, each order of bytes and each signedness of characters.
-/

namespace WordSwitch

open Source

/-- The integer that an expression stands for, with its type, in a function that
is given the input. -/
def Source.Machine.integer?
    (machine : Machine)
    (expression : Expression) :
    Option (IntegerType × Nat) :=
  match expression.evaluate? machine machine.call? [("string", .pointer 0)] with
  | some [.integer type value] => some (type, value)
  | _ => none

/-- A switch on an integer of some type that decides as a comparison with a key
does.  There is a machine for each chunk that the switch may read. -/
structure Source.Decides
    (machine : (chunk : Bytes) → Machine)
    (type : IntegerType)
    (subject : Expression)
    (constants : List Expression)
    (comparison : Chunk.Comparison)
    (key : Bytes) :
    Prop where
  /-- Some constant is equal to what is read exactly if that is accepted. -/
  decides : ∀ chunk, chunk.length = key.length →
    ∃ value, (machine chunk).integer? subject = some (type, value) ∧
      (comparison.accepts chunk key = true ↔
        ∃ constant ∈ constants,
          (machine chunk).constant? type constant = some value)
  /-- Chunks that the comparison tells apart are different integers. -/
  separates : ∀ first second,
    first.length = key.length → second.length = key.length →
      ((machine first).integer? subject = (machine second).integer? subject ↔
        comparison.seen first = comparison.seen second)
  /-- All constants have values. -/
  defined : ∀ chunk, ∀ constant ∈ constants,
    ((machine chunk).constant? type constant).isSome = true
  /-- No two constants have the same value. -/
  distinct : ∀ chunk, (constants.map ((machine chunk).constant? type)).Nodup

namespace Program

/-- The edges of a node with one edge, which leads to a leaf. -/
def loneEdge (key : Bytes) (member : Enumerator) : Branches Unit :=
  .cons key () (some member) .nil .nil

/-- The code of a node with one edge, at an offset in the input. -/
def nodeCode
    (comparison : Chunk.Comparison)
    (offset : Nat)
    (key : Bytes)
    (member fallback : Enumerator) :
    Code :=
  .switch ⟨offset, key.length, comparison == .folded⟩
    ((loneEdge key member).code (comparison != .exact) comparison offset
      key.length)
    (.answer fallback.label .nil)

/-- The definitions for inputs of one length, which a single node reads. -/
def nodeDefinitions
    (comparison : Chunk.Comparison)
    (offset length : Nat)
    (key : Bytes)
    (member fallback : Enumerator) :
    Program.Definitions :=
  ⟨[(length, nodeCode comparison offset key member fallback)], fallback.label⟩

/-- The widths for which functions are written if a single width is read. -/
def widthsOf (width : Nat) : List Nat :=
  [width].filter (1 < ·)

/-! ## Definitions with a single node -/

/-- What the switch of a node compares with its constants. -/
theorem value?_between
    (platform : Platform)
    (comparison : Chunk.Comparison)
    (before chunk after : Bytes) :
    Subject.value? ⟨before.length, chunk.length, comparison == .folded⟩ platform
        (before ++ chunk ++ after) =
      some (platform.subjectValue comparison chunk) := by
  have between : ((before ++ chunk ++ after).drop before.length).take
      chunk.length = chunk := by
    rw [List.append_assoc, List.drop_left, List.take_left]
  have value := Subject.value?_eq_some platform
    ⟨before.length, chunk.length, comparison == .folded⟩ rfl
    (show before.length + chunk.length ≤ (before ++ chunk ++ after).length by
      simp)
  rw [value, between]

theorem code_loneEdge
    (ignoreCase : Bool)
    (comparison : Chunk.Comparison)
    (offset width : Nat)
    (key : Bytes)
    (member : Enumerator) :
    (loneEdge key member).code ignoreCase comparison offset width =
      Code.labelled (constants comparison key) (.answer member.label .nil) := rfl

theorem constants_loneEdge
    (ignoreCase : Bool)
    (comparison : Chunk.Comparison)
    (offset width : Nat)
    (key : Bytes)
    (member : Enumerator) :
    ((loneEdge key member).code ignoreCase comparison offset width).constants =
      constants comparison key := by
  rw [code_loneEdge, Code.constants_labelled]
  exact List.append_nil _

theorem widths_nodeCode
    (comparison : Chunk.Comparison)
    (offset : Nat)
    (key : Bytes)
    (member fallback : Enumerator) :
    (nodeCode comparison offset key member fallback).widths = [key.length] := by
  rw [nodeCode, Code.widths_switch, code_loneEdge, Code.widths_labelled]
  rfl

theorem mem_widthsOf_iff {width other : Nat} :
    other ∈ widthsOf width ↔ 1 < other ∧ other = width := by
  rw [widthsOf, List.mem_filter, List.mem_singleton, decide_eq_true_iff,
    and_comm]

/-- The body of the switch. -/
theorem fits_loneEdge
    (ignoreCase : Bool)
    (comparison : Chunk.Comparison)
    (offset : Nat)
    {key : Bytes}
    (readable : key.length ∈ Chunk.readableWidths)
    {member : Enumerator}
    (member_named : IsName member.label)
    (length : Nat) :
    ((loneEdge key member).code ignoreCase comparison offset key.length).Fits
      length key.length := by
  have unreadable : 0 ∉ Chunk.readableWidths := by decide
  rw [code_loneEdge]
  refine Code.fits_labelled (fun constant listed => ?_) ⟨member_named, trivial⟩
  have same_length := length_of_mem_constants listed
  refine ⟨?_, same_length⟩
  rintro rfl
  rw [← same_length] at readable
  exact unreadable readable

/-- Definitions with a single node are read as they are meant. -/
theorem fit_nodeDefinitions
    (comparison : Chunk.Comparison)
    {offset length : Nat}
    {key : Bytes}
    (within : offset + key.length ≤ length)
    (readable : key.length ∈ Chunk.readableWidths)
    {member fallback : Enumerator}
    (member_named : IsName member.label)
    (fallback_named : IsName fallback.label) :
    (nodeDefinitions comparison offset length key member fallback).Fit
      (widthsOf key.length) := by
  have only : ∀ other code, (other, code) ∈ (nodeDefinitions comparison offset
      length key member fallback).functions ↔
        other = length ∧
          code = nodeCode comparison offset key member fallback := by
    intro other code
    rw [nodeDefinitions, List.mem_singleton, Prod.mk.injEq]
  refine ⟨List.nodup_singleton _, fallback_named, ?fits, ?noFallThrough,
    (List.nodup_singleton _).filter _, ?wideWidths⟩
  case fits =>
    intro other code listed
    obtain ⟨rfl, rfl⟩ := (only other code).mp listed
    refine ⟨⟨readable, within, ?_⟩,
      fits_loneEdge _ comparison offset readable member_named _,
      fallback_named, trivial⟩
    rw [constants_loneEdge]
    exact nodup_constants comparison key
  case noFallThrough =>
    intro other code listed
    obtain ⟨rfl, rfl⟩ := (only other code).mp listed
    exact ⟨Branches.noFallThrough_code _ _ _ _ (loneEdge key member), trivial⟩
  case wideWidths =>
    intro width
    simp only [mem_widthsOf_iff, only, exists_eq_left, exists_and_left,
      and_assoc, widths_nodeCode, List.mem_singleton]

/-- Running the code of a node returns the enumerator if what is read is
accepted. -/
theorem run_nodeCode
    (platform : Platform)
    (comparison : Chunk.Comparison)
    {key chunk : Bytes}
    (same_length : chunk.length = key.length)
    (before after : Bytes)
    (member fallback : Enumerator) :
    (nodeCode comparison before.length key member fallback).run platform
        (before ++ chunk ++ after) none =
      .returned (if comparison.accepts chunk key then member
        else fallback).label := by
  have value := value?_between platform comparison before chunk after
  rw [same_length] at value
  rw [nodeCode, Code.run, value, code_loneEdge]
  simp only [Code.run_labelled_some, exists_constant_iff platform same_length]
  cases comparison.accepts chunk key <;> rfl

/-! ## The decision -/

section

variable
  {environment : Environment}
  {config : CodeConfig}
  {wideWidths : List Nat}
  {macros : List Macro}
  (serves : Serves environment config wideWidths macros)

include serves

/-- What a switch depends on is an integer. -/
theorem integer?_term
    (comparison : Chunk.Comparison)
    {definitions : Program.Definitions}
    (fit : definitions.Fit wideWidths)
    (before after : Bytes)
    {width : Nat}
    (readable : width ∈ Chunk.readableWidths)
    (wide : width ≠ 1 → width ∈ wideWidths)
    {chunk : Bytes}
    (width_eq : chunk.length = width) :
    (textMachine environment macros config wideWidths definitions
      (before ++ chunk ++ after)).integer?
        (Subject.term ⟨before.length, width, comparison == .folded⟩ config) =
      some (.ofBits (8 * width),
        environment.platform.subjectValue comparison chunk) := by
  subst width_eq
  have evaluated := @evaluate?_term environment config wideWidths macros serves
    definitions (before ++ chunk ++ after) fit
    ⟨before.length, chunk.length, comparison == .folded⟩ readable wide
  dsimp only at evaluated
  rw [Machine.integer?, evaluated, value?_between]
  rfl

/-- The constants of an edge have values in the type of what is read. -/
theorem constant?_of_mem_constants
    (definitions : Program.Definitions)
    (input : Bytes)
    {key : Bytes}
    (readable : key.length ∈ Chunk.readableWidths)
    (wide : key.length ≠ 1 → key.length ∈ wideWidths)
    {comparison : Chunk.Comparison}
    {constant : Bytes}
    (listed : constant ∈ constants comparison key) :
    (textMachine environment macros config wideWidths definitions input).constant?
        (.ofBits (8 * key.length)) (constantTerm constant) =
      some (environment.platform.constant constant) := by
  rw [← length_of_mem_constants listed] at readable wide ⊢
  exact constant?_constantTerm serves definitions input readable
    fun several => List.ne_nil_of_mem (wide (Nat.ne_of_gt several))

/-- The switch of a node decides as its comparison does. -/
theorem decides_term
    (comparison : Chunk.Comparison)
    {definitions : Program.Definitions}
    (fit : definitions.Fit wideWidths)
    (before after : Bytes)
    {key : Bytes}
    (readable : key.length ∈ Chunk.readableWidths)
    (wide : key.length ≠ 1 → key.length ∈ wideWidths) :
    Decides
      (fun chunk => textMachine environment macros config wideWidths definitions
        (before ++ chunk ++ after))
      (.ofBits (8 * key.length))
      (Subject.term ⟨before.length, key.length, comparison == .folded⟩ config)
      ((constants comparison key).map constantTerm) comparison key := by
  have reads := fun chunk => @integer?_term environment config wideWidths macros
    serves comparison definitions fit before after key.length readable wide chunk
  have values := fun chunk constant => @constant?_of_mem_constants environment
    config wideWidths macros serves definitions (before ++ chunk ++ after) key
    readable wide comparison constant
  refine ⟨?decides, ?separates, ?defined, ?distinct⟩
  case decides =>
    intro chunk same_length
    refine ⟨_, reads chunk same_length, ?_⟩
    simp only [← exists_constant_iff environment.platform same_length,
      List.mem_map, exists_exists_and_eq_and]
    refine exists_congr fun constant => and_congr_right fun listed => ?_
    rw [values chunk constant listed, Option.some_inj]
  case separates =>
    intro first second first_length second_length
    rw [reads first first_length, reads second second_length, Option.some_inj,
      Prod.mk.injEq, eq_self_iff_true, true_and,
      environment.platform.subjectValue_eq_iff comparison
        (first_length.trans second_length.symm)]
  case defined =>
    intro chunk constant listed
    obtain ⟨written, inConstants, rfl⟩ := List.mem_map.mp listed
    rw [values chunk written inConstants]
    rfl
  case distinct =>
    intro chunk
    have values_eq : (constants comparison key).map
        ((textMachine environment macros config wideWidths definitions
          (before ++ chunk ++ after)).constant? (.ofBits (8 * key.length)) ∘
            constantTerm) =
        (constants comparison key).map
          (some ∘ environment.platform.constant) :=
      List.map_congr_left (values chunk)
    rw [List.map_map, values_eq, ← List.map_map]
    exact (environment.platform.nodup_map_constant
      (fun _ => length_of_mem_constants)
      (nodup_constants comparison key)).map fun _ _ => Option.some.inj

end

/-- The text for a node with one edge is read as a function with a switch that
decides as the comparison of the node does, so the function returns the
enumerator of the edge exactly if what is read is accepted. -/
theorem decision_at_node
    {code : CodeConfig}
    (checked : code.check = .ok ())
    {member fallback : Enumerator}
    (member_label : Label.isIdentifier member.label = true)
    (fallback_label : Label.isIdentifier fallback.label = true)
    {key : Bytes}
    (readable : key.length ∈ Chunk.readableWidths)
    (comparison : Chunk.Comparison)
    (environment : Environment)
    (before after : Bytes) :
    let length := before.length + key.length + after.length
    let written := nodeDefinitions comparison before.length length key member
      fallback
    ∃ text definitions subject body type,
      Lines.text (definitionLines code (widthsOf key.length) written) =
        code.includeText ++ text ∧
      Source.read environment code.openConditions text = some definitions ∧
      definitions.function? (code.lengthFunction length) =
        some ⟨code.lengthFunction length, [⟨"string", true⟩],
          .code (.switch subject body
            (.answer (code.path fallback.label) .nil))⟩ ∧
      Decides
        (fun chunk =>
          ⟨environment.platform, before ++ chunk ++ after, definitions⟩)
        type subject body.constants comparison key ∧
      ∀ chunk, chunk.length = key.length →
        definitions.call environment.platform code.functionName
            (before ++ chunk ++ after) =
          .returned (code.path (if comparison.accepts chunk key then member
            else fallback).label) := by
  intro length written
  have named := CodeConfig.isNamed_of_check checked
  have fit : written.Fit (widthsOf key.length) :=
    fit_nodeDefinitions comparison (Nat.le_add_right _ _) readable
      (isName_of_isIdentifier member_label)
      (isName_of_isIdentifier fallback_label)
  have listed : (length, nodeCode comparison before.length key member
      fallback) ∈ written.functions := List.mem_cons_self
  have serves : Serves environment code (widthsOf key.length)
      (placeMacros environment [] (widthsOf key.length)) :=
    serves_placeMacros environment (fun _ => List.find?_nil)
      (fun _ => List.any_nil)
  have wide : key.length ≠ 1 → key.length ∈ widthsOf key.length :=
    fun many => mem_widthsOf_iff.mpr
      ⟨Chunk.one_lt_of_mem_readableWidths readable many, rfl⟩
  have body_constants : (((loneEdge key member).code (comparison != .exact)
      comparison before.length key.length).sequence code).constants =
      (constants comparison key).map constantTerm := by
    rw [constants_sequence, constants_loneEdge]
  refine ⟨bodyText code (widthsOf key.length) written,
    sourceDefinitions (placeMacros environment [] (widthsOf key.length)) code
      (widthsOf key.length) written,
    Subject.term ⟨before.length, key.length, comparison == .folded⟩ code,
    ((loneEdge key member).code (comparison != .exact) comparison before.length
      key.length).sequence code,
    .ofBits (8 * key.length), ?text, ?read, ?function, ?decides, ?returns⟩
  case text => exact text_definitionLines code (widthsOf key.length) written
  case read => exact readAfter_bodyText named fit areOwn_nil environment
  case function =>
    exact function?_lengthFunction _ code fit listed
  case decides =>
    rw [body_constants]
    exact decides_term serves comparison fit before after readable wide
  case returns =>
    intro chunk same_length
    have input_length : (before ++ chunk ++ after).length = length := by
      rw [List.length_append, List.length_append, same_length]
    have called : written.call environment.platform (before ++ chunk ++ after) =
        .returned (if comparison.accepts chunk key then member
          else fallback).label := by
      rw [Program.Definitions.call, input_length, ← run_nodeCode
        environment.platform comparison same_length before after member fallback]
      simp [written, nodeDefinitions, findIn?]
    exact call_sourceDefinitions serves _ fit called

theorem decision_at_node_eitherCase :
    ∃ text definitions subject, ∃ body : Sequence, ∃ type,
      Lines.text (definitionLines Lexicon.methodCode (widthsOf 2)
        (nodeDefinitions .folded 1 4 [71, 111] ⟨"Go", 3⟩ ⟨"Other", 0⟩)) =
        Lexicon.methodCode.includeText ++ text ∧
      Source.read ⟨.big, true, true⟩ [] text = some definitions ∧
      Decides
        (fun chunk => ⟨⟨true, true⟩, [47] ++ chunk ++ [10], definitions⟩)
        type subject body.constants .folded [71, 111] ∧
      definitions.call ⟨true, true⟩ "find" [47, 103, 79, 10] =
        .returned ["Method", "Go"] ∧
      definitions.call ⟨true, true⟩ "find" [47, 103, 80, 10] =
        .returned ["Method", "Other"] := by
  obtain ⟨text, definitions, subject, body, type, text_eq, read, _, decides,
    returns⟩ := @decision_at_node Lexicon.methodCode (by decide) ⟨"Go", 3⟩
      ⟨"Other", 0⟩ (by decide) (by decide) [71, 111] (by decide) .folded
      ⟨.big, true, true⟩ [47] [10]
  exact ⟨text, definitions, subject, body, type, text_eq, read, decides,
    returns [103, 79] rfl, returns [103, 80] rfl⟩

end Program
end WordSwitch
