import WordSwitch.Proofs.Bytes
import WordSwitch.Proofs.Lexicon.Label
import WordSwitch.Proofs.WordList.Numeral
import WordSwitch.Proofs.WordList.Tokens
import WordSwitch.WordList.Reader

/-!
# The grammar of a line

What a line declares by the way it is written: `[label ~] word [= value]`
declares a word and `[label ~] = value` declares the fallback, with ASCII
whitespace wherever a part begins or ends.  A line is followed exactly if the
grammar gives it a declaration or it is blank.  The parser cuts at the first
marks before it looks at any part, which finds the parts as they were written
because no label, word or value holds a mark.  All other lines are refused with
a report but those whose value overflows, which break the reading off.
-/

namespace WordSwitch

namespace Line

/-! ## Marks -/

/-- One of the two bytes that tell the parts of a line apart. -/
def IsMark (byte : UInt8) : Prop :=
  byte = labelMark ∨ byte = valueMark

theorem IsMark.solid {byte : UInt8} (mark : IsMark byte) :
    Byte.isSpace byte = false := by
  rcases mark with rfl | rfl <;> rfl

/-- A numeral holds no mark. -/
theorem IsMark.not_mem_numeral
    {mark : UInt8}
    (isMark : IsMark mark)
    {numeral : Bytes}
    (reads : Numeral.read numeral ≠ .error .invalid) :
    mark ∉ numeral := by
  intro member
  rcases Numeral.mem_or_isSome_digit? reads member with listed | ⟨base, digit⟩
  · rcases isMark with rfl | rfl <;> revert listed <;> decide
  · rcases isMark with rfl | rfl <;>
      simp [Numeral.digit?, labelMark, valueMark] at digit

/-- An identifier holds no mark. -/
theorem IsMark.not_mem_identifier
    {mark : UInt8}
    (isMark : IsMark mark)
    {token : Bytes}
    (identifier : Label.isIdentifier (Bytes.characters token) = true) :
    mark ∉ token := by
  intro member
  have shown : Char.ofNat mark.toNat ∈ (Bytes.characters token).toList := by
    rw [Bytes.characters, String.toList_ofList]
    exact List.mem_map.mpr ⟨mark, member, rfl⟩
  have later := Label.isLater_of_isIdentifier identifier _ shown
  rcases isMark with rfl | rfl <;> revert later <;> decide

/-! ## Parts of a line -/

namespace Parts

/-- A label part with the mark after it. -/
def labelText : Option Bytes → Bytes
  | none => []
  | some label => label ++ [labelMark]

/-- A value part with the mark in front of it. -/
def valueText : Option Bytes → Bytes
  | none => []
  | some value => valueMark :: value

/-- The line that is written with some parts. -/
def text (parts : Parts) : Bytes :=
  labelText parts.label ++ (parts.word ++ valueText parts.value)

/-- No part holds a mark that the line could be cut at instead. -/
structure Separated (parts : Parts) : Prop where
  label : ∀ label ∈ parts.label, labelMark ∉ label
  word : ∀ mark, IsMark mark → mark ∉ parts.word
  value : ∀ value ∈ parts.value, ∀ mark, IsMark mark → mark ∉ value

end Parts

/-- Cutting a line loses nothing, and each cut is at the first mark. -/
theorem parts_cut (line : Bytes) :
    (parts line).text = line ∧
      (∀ label ∈ (parts line).label, labelMark ∉ label) ∧
      valueMark ∉ (parts line).word := by
  unfold parts Parts.text
  cases labelCut : Bytes.cutAt labelMark line with
  | none =>
    cases valueCut : Bytes.cutAt valueMark line with
    | none =>
      have absent := Bytes.cutAt_eq_none_iff.mp valueCut
      simp [valueCut, Parts.labelText, Parts.valueText, absent]
    | some pieces =>
      obtain ⟨equal, absent⟩ := Bytes.cutAt_eq_some_iff.mp valueCut
      simp [valueCut, Parts.labelText, Parts.valueText, ← equal, absent]
  | some pieces =>
    obtain ⟨label, rest⟩ := pieces
    obtain ⟨rfl, labelFree⟩ := Bytes.cutAt_eq_some_iff.mp labelCut
    cases valueCut : Bytes.cutAt valueMark rest with
    | none =>
      have absent := Bytes.cutAt_eq_none_iff.mp valueCut
      simp [valueCut, Parts.labelText, Parts.valueText, labelFree, absent]
    | some pieces =>
      obtain ⟨equal, absent⟩ := Bytes.cutAt_eq_some_iff.mp valueCut
      simp [valueCut, Parts.labelText, Parts.valueText, labelFree, ← equal,
        absent]

theorem Parts.hasMisplacedMark_eq_false_iff {parts : Parts} :
    parts.hasMisplacedMark = false ↔ labelMark ∉ parts.word ∧
      ∀ value ∈ parts.value, ∀ mark, IsMark mark → mark ∉ value := by
  obtain ⟨label, word, value⟩ := parts
  cases value <;> simp [hasMisplacedMark, IsMark]

/-- A line without misplaced marks is cut into parts that the marks separate. -/
theorem separated_parts
    {line : Bytes}
    (placed : (parts line).hasMisplacedMark = false) :
    (parts line).Separated := by
  obtain ⟨wordFree, valueFree⟩ := Parts.hasMisplacedMark_eq_false_iff.mp placed
  obtain ⟨_, labelFree, noValueMark⟩ := parts_cut line
  refine ⟨labelFree, ?_, valueFree⟩
  rintro mark (rfl | rfl)
  · exact wordFree
  · exact noValueMark

theorem Parts.cutAt_labelText
    {label : Option Bytes}
    {rest : Bytes}
    (labelFree : ∀ part ∈ label, labelMark ∉ part)
    (restFree : labelMark ∉ rest) :
    Bytes.cutAt labelMark (labelText label ++ rest) = label.map (·, rest) := by
  cases label with
  | none => exact Bytes.cutAt_eq_none_iff.mpr restFree
  | some part =>
    rw [labelText, List.append_assoc]
    exact Bytes.cutAt_append (labelFree part rfl) rest

theorem Parts.cutAt_valueText
    {word : Bytes}
    (wordFree : valueMark ∉ word)
    (value : Option Bytes) :
    Bytes.cutAt valueMark (word ++ valueText value) = value.map (word, ·) := by
  cases value with
  | none =>
    rw [valueText, List.append_nil]
    exact Bytes.cutAt_eq_none_iff.mpr wordFree
  | some part => exact Bytes.cutAt_append wordFree part

/-- A line is cut into the parts that it is written with. -/
theorem Parts.Separated.parts_text
    {parts : Parts}
    (separated : parts.Separated) :
    Line.parts parts.text = parts := by
  obtain ⟨label, word, value⟩ := parts
  obtain ⟨labelFree, wordFree, valueFree⟩ := separated
  have restFree : labelMark ∉ word ++ valueText value := by
    rw [List.mem_append]
    rintro (inWord | inValue)
    · exact wordFree labelMark (.inl rfl) inWord
    · cases value with
      | none => cases inValue
      | some part =>
        rcases List.mem_cons.mp inValue with equal | inPart
        · exact absurd equal (by decide)
        · exact valueFree part rfl labelMark (.inl rfl) inPart
  have labelCut := cutAt_labelText labelFree restFree
  have valueCut := cutAt_valueText (wordFree valueMark (.inr rfl)) value
  unfold Line.parts text
  rw [labelCut]
  cases label with
  | none =>
    simp only [labelText, Option.map_none, List.nil_append, valueCut]
    cases value <;> simp [valueText]
  | some part =>
    simp only [Option.map_some, valueCut]
    cases value <;> simp [valueText]

theorem Parts.Separated.hasMisplacedMark_eq_false
    {parts : Parts}
    (separated : parts.Separated) :
    parts.hasMisplacedMark = false :=
  hasMisplacedMark_eq_false_iff.mpr
    ⟨separated.word labelMark (.inl rfl), separated.value⟩

/-! ## The grammar -/

/-- A non-empty run of bytes that are neither ASCII whitespace nor marks. -/
structure IsWord (word : Bytes) : Prop where
  isToken : word.IsToken
  noMark : ∀ mark, IsMark mark → mark ∉ word

/-- What stands in front of the `~` declares a label: a single token that is an
identifier. -/
inductive DeclaresLabel : Option Bytes → Option String → Prop where
  | absent : DeclaresLabel none none
  | present
      {part token : Bytes}
      (holds : part.HoldsToken token)
      (identifier : Label.isIdentifier (Bytes.characters token) = true) :
      DeclaresLabel (some part) (some (Bytes.characters token))

/-- What stands after the `=` declares a value: a single token that is a
numeral. -/
inductive DeclaresValue : Option Bytes → Option Int → Prop where
  | absent : DeclaresValue none none
  | present
      {part token : Bytes}
      {value : Int}
      (holds : part.HoldsToken token)
      (stands : Numeral.read token = .ok value) :
      DeclaresValue (some part) (some value)

/-- What the parts of a line declare: a word with the label in front of it or
with its own one, or the fallback if a value but no word is there. -/
inductive Parts.Declares : Parts → Declaration → Prop where
  | labelled
      {labelPart valuePart : Option Bytes}
      {wordPart word : Bytes}
      {label : String}
      {value : Option Int}
      (declaresLabel : DeclaresLabel labelPart (some label))
      (holds : wordPart.HoldsToken word)
      (isWord : IsWord word)
      (declaresValue : DeclaresValue valuePart value) :
      Declares ⟨labelPart, wordPart, valuePart⟩ (.entry word label value)
  | unlabelled
      {valuePart : Option Bytes}
      {wordPart word : Bytes}
      {value : Option Int}
      (holds : wordPart.HoldsToken word)
      (isWord : IsWord word)
      (identifier : Label.isIdentifier (Label.ofWord word) = true)
      (declaresValue : DeclaresValue valuePart value) :
      Declares ⟨none, wordPart, valuePart⟩
        (.entry word (Label.ofWord word) value)
  | fallback
      {labelPart valuePart : Option Bytes}
      {wordPart : Bytes}
      {label : Option String}
      {value : Int}
      (declaresLabel : DeclaresLabel labelPart label)
      (blank : wordPart.IsBlank)
      (declaresValue : DeclaresValue valuePart (some value)) :
      Declares ⟨labelPart, wordPart, valuePart⟩ (.fallback label value)

/-- A line declares what the parts that it is written with declare. -/
def Declares (line : Bytes) (declaration : Declaration) : Prop :=
  ∃ parts : Parts, parts.text = line ∧ parts.Declares declaration

/-- The value overflows: what stands in front of the `~` declares a label if
anything does, no mark is left between the marks, and what stands after the `=`
is a single token of which the negation overflows. -/
structure Parts.Overflows (parts : Parts) : Prop where
  label : ∃ label, DeclaresLabel parts.label label
  word : ∀ mark, IsMark mark → mark ∉ parts.word
  value : ∃ part ∈ parts.value, ∃ token, part.HoldsToken token ∧
    Numeral.read token = .error .overflow

/-- A line overflows if a value does in the parts that it is written with. -/
def Overflows (line : Bytes) : Prop :=
  ∃ parts : Parts, parts.text = line ∧ parts.Overflows

/-! ## Reading the parts -/

theorem singleToken_eq_ok_none_iff {part : Part} {bytes : Bytes} :
    singleToken part bytes = .ok none ↔ bytes.IsBlank := by
  rw [← Bytes.tokens_eq_nil_iff, singleToken]
  split <;> simp [*]

theorem singleToken_eq_ok_some_iff {part : Part} {bytes token : Bytes} :
    singleToken part bytes = .ok (some token) ↔ bytes.HoldsToken token := by
  rw [← Bytes.tokens_eq_singleton_iff, singleToken]
  split <;> simp [*]

theorem readLabel_eq_ok_iff
    {part : Option Bytes}
    {label : Option String} :
    readLabel part = .ok label ↔ DeclaresLabel part label := by
  constructor
  · intro read
    cases part with
    | none =>
      cases read
      exact .absent
    | some bytes =>
      rw [readLabel] at read
      match single : singleToken .label bytes with
      | .error problem => rw [single] at read; cases read
      | .ok none => rw [single] at read; cases read
      | .ok (some token) =>
        by_cases identifier : Label.isIdentifier (Bytes.characters token) = true
        · rw [single] at read
          have label_eq := (if_pos identifier).symm.trans read
          cases label_eq
          exact .present (singleToken_eq_ok_some_iff.mp single) identifier
        · rw [single] at read
          have refused := (if_neg identifier).symm.trans read
          cases refused
  · rintro (_ | ⟨holds, identifier⟩)
    · rfl
    · rw [readLabel, singleToken_eq_ok_some_iff.mpr holds]
      exact if_pos identifier

theorem readValue_eq_ok_iff
    {part : Option Bytes}
    {value : Option Int} :
    readValue part = .ok value ↔ DeclaresValue part value := by
  constructor
  · intro read
    cases part with
    | none =>
      cases read
      exact .absent
    | some bytes =>
      rw [readValue] at read
      match single : singleToken .value bytes with
      | .error problem => rw [single] at read; cases read
      | .ok none => rw [single] at read; cases read
      | .ok (some token) =>
        match stands : Numeral.read token with
        | .error .invalid => simp [single, stands, bind, Except.bind] at read
        | .error .overflow => simp [single, stands, bind, Except.bind] at read
        | .ok number =>
          simp only [single, stands, bind, Except.bind, Except.ok.injEq] at read
          exact read ▸ .present (singleToken_eq_ok_some_iff.mp single) stands
  · rintro (_ | ⟨holds, stands⟩)
    · rfl
    · simp [readValue, singleToken_eq_ok_some_iff.mpr holds, stands, bind,
        Except.bind]

theorem declareWord_eq_ok_iff
    {word : Bytes}
    {label : Option String}
    {value : Option Int}
    {declaration : Declaration} :
    declareWord word label value = .ok declaration ↔
      ∃ chosen, declaration = .entry word chosen value ∧
        (label = some chosen ∨ label = none ∧ chosen = Label.ofWord word ∧
          Label.isIdentifier (Label.ofWord word) = true) := by
  cases label with
  | some name =>
    simp only [declareWord, Except.ok.injEq, Option.some.injEq, reduceCtorEq,
      false_and, or_false, exists_eq_right']
    exact eq_comm
  | none =>
    rw [declareWord]
    split
    · next identifier => simp [identifier, eq_comm]
    · next refused => simp [refused]

/-- Following the parts one after another succeeds exactly if each of them
declares something and there is a word or a value. -/
theorem Parts.declaration_eq_ok_iff
    {parts : Parts}
    {declaration : Declaration} :
    parts.declaration = .ok declaration ↔
      ∃ label value, readLabel parts.label = .ok label ∧
        readValue parts.value = .ok value ∧
        ((∃ word, singleToken .word parts.word = .ok (some word) ∧
            declareWord word label value = .ok declaration) ∨
          singleToken .word parts.word = .ok none ∧
            ∃ number, value = some number ∧
              declaration = .fallback label number) := by
  unfold Parts.declaration
  cases readLabel parts.label with
  | error problem => simp [bind, Except.bind]
  | ok label =>
    cases readValue parts.value with
    | error problem => simp [bind, Except.bind]
    | ok value =>
      match singleToken .word parts.word with
      | .error problem => simp [bind, Except.bind]
      | .ok (some word) => simp [bind, Except.bind]
      | .ok none => cases value <;> simp [bind, Except.bind, eq_comm]

theorem Parts.declaration_eq_ok_iff_declares
    {parts : Parts}
    (separated : parts.Separated)
    {declaration : Declaration} :
    parts.declaration = .ok declaration ↔ parts.Declares declaration := by
  rw [declaration_eq_ok_iff]
  simp only [readLabel_eq_ok_iff, readValue_eq_ok_iff,
    singleToken_eq_ok_some_iff, singleToken_eq_ok_none_iff,
    declareWord_eq_ok_iff]
  obtain ⟨labelPart, wordPart, valuePart⟩ := parts
  constructor
  · rintro ⟨label, value, declaresLabel, declaresValue,
      ⟨word, holds, chosen, rfl, named⟩ | ⟨blank, number, rfl, rfl⟩⟩
    · have isWord : IsWord word :=
        ⟨holds.isToken, fun mark isMark inWord =>
          separated.word mark isMark (holds.mem inWord)⟩
      rcases named with rfl | ⟨rfl, rfl, identifier⟩
      · exact .labelled declaresLabel holds isWord declaresValue
      · cases declaresLabel
        exact .unlabelled holds isWord identifier declaresValue
    · exact .fallback declaresLabel blank declaresValue
  · rintro (⟨declaresLabel, holds, isWord, declaresValue⟩ |
      ⟨holds, isWord, identifier, declaresValue⟩ |
      ⟨declaresLabel, blank, declaresValue⟩)
    · exact ⟨_, _, declaresLabel, declaresValue,
        .inl ⟨_, holds, _, rfl, .inl rfl⟩⟩
    · exact ⟨_, _, .absent, declaresValue,
        .inl ⟨_, holds, _, rfl, .inr ⟨rfl, rfl, identifier⟩⟩⟩
    · exact ⟨_, _, declaresLabel, declaresValue, .inr ⟨blank, _, rfl, rfl⟩⟩

/-! ## Written lines are cut where they were joined -/

theorem DeclaresLabel.not_mem
    {part : Option Bytes}
    {label : Option String}
    (declares : DeclaresLabel part label)
    {mark : UInt8}
    (isMark : IsMark mark) :
    ∀ bytes ∈ part, mark ∉ bytes := by
  intro bytes present
  cases declares with
  | absent => cases present
  | present holds identifier =>
    cases present
    exact holds.not_mem isMark.solid (isMark.not_mem_identifier identifier)

theorem DeclaresValue.not_mem
    {part : Option Bytes}
    {value : Option Int}
    (declares : DeclaresValue part value)
    {mark : UInt8}
    (isMark : IsMark mark) :
    ∀ bytes ∈ part, mark ∉ bytes := by
  intro bytes present
  cases declares with
  | absent => cases present
  | present holds stands =>
    cases present
    exact holds.not_mem isMark.solid
      (isMark.not_mem_numeral (by simp [stands]))

theorem Parts.Declares.separated
    {parts : Parts}
    {declaration : Declaration}
    (declares : parts.Declares declaration) :
    parts.Separated := by
  cases declares with
  | labelled declaresLabel holds isWord declaresValue =>
    exact ⟨declaresLabel.not_mem (.inl rfl),
      fun mark isMark => holds.not_mem isMark.solid (isWord.noMark mark isMark),
      fun part present mark isMark => declaresValue.not_mem isMark part present⟩
  | unlabelled holds isWord identifier declaresValue =>
    exact ⟨by simp,
      fun mark isMark => holds.not_mem isMark.solid (isWord.noMark mark isMark),
      fun part present mark isMark => declaresValue.not_mem isMark part present⟩
  | fallback declaresLabel blank declaresValue =>
    exact ⟨declaresLabel.not_mem (.inl rfl),
      fun mark isMark => blank.not_mem isMark.solid,
      fun part present mark isMark => declaresValue.not_mem isMark part present⟩

/-- A line that declares something is not blank: it has a word or a mark. -/
theorem Parts.Declares.not_isBlank
    {parts : Parts}
    {declaration : Declaration}
    (declares : parts.Declares declaration) :
    ¬ parts.text.IsBlank := by
  have ofWord : ∀ {labelPart valuePart : Option Bytes} {wordPart word : Bytes},
      wordPart.HoldsToken word →
        ¬ (Parts.text ⟨labelPart, wordPart, valuePart⟩).IsBlank := by
    intro labelPart valuePart wordPart word holds blank
    refine holds.not_isBlank fun byte member => blank byte ?_
    exact List.mem_append_right _ (List.mem_append_left _ member)
  cases declares with
  | labelled _ holds => exact ofWord holds
  | unlabelled holds => exact ofWord holds
  | fallback _ _ declaresValue =>
    cases declaresValue
    exact fun blank => blank.not_mem (IsMark.solid (.inr rfl))
      (by simp [Parts.text, Parts.valueText])

/-! ## The parser and the grammar -/

theorem all_isSpace_iff {line : Bytes} :
    line.all Byte.isSpace = true ↔ line.IsBlank :=
  List.all_eq_true

theorem parse_eq_ok_none_iff {line : Bytes} :
    parse line = .ok none ↔ line.IsBlank := by
  rw [parse]
  split
  · next blank => simp [all_isSpace_iff.mp blank]
  · next notBlank =>
    rw [all_isSpace_iff] at notBlank
    split
    · simp [notBlank]
    · cases (parts line).declaration <;> simp [notBlank, Functor.map, Except.map]

theorem parse_eq_ok_some_iff
    {line : Bytes}
    {declaration : Declaration} :
    parse line = .ok (some declaration) ↔ Declares line declaration := by
  constructor
  · intro parsed
    rw [parse] at parsed
    split at parsed
    · cases parsed
    split at parsed
    · cases parsed
    next placed =>
    have separated := separated_parts ((Bool.not_eq_true _).mp placed)
    refine ⟨parts line, (parts_cut line).1, ?_⟩
    rw [← Parts.declaration_eq_ok_iff_declares separated]
    cases declared : (parts line).declaration with
    | error problem => rw [declared] at parsed; cases parsed
    | ok found => rw [declared] at parsed; cases parsed; rfl
  · rintro ⟨written, rfl, declares⟩
    have separated := declares.separated
    rw [parse, if_neg (all_isSpace_iff.not.mpr declares.not_isBlank),
      separated.parts_text, separated.hasMisplacedMark_eq_false,
      (Parts.declaration_eq_ok_iff_declares separated).mpr declares]
    rfl

/-! ## Values that overflow -/

theorem singleToken_ne_overflow {part : Part} {bytes : Bytes} :
    singleToken part bytes ≠ .error .negationOverflow := by
  rw [singleToken]
  split <;> nofun

theorem readLabel_ne_overflow {part : Option Bytes} :
    readLabel part ≠ .error .negationOverflow := by
  cases part with
  | none => nofun
  | some bytes =>
    rw [readLabel]
    match single : singleToken .label bytes with
    | .error problem =>
      intro fails
      cases fails
      exact singleToken_ne_overflow single
    | .ok none => nofun
    | .ok (some token) =>
      simp only [bind, Except.bind]
      split <;> nofun

theorem declareWord_ne_overflow
    {word : Bytes}
    {label : Option String}
    {value : Option Int} :
    declareWord word label value ≠ .error .negationOverflow := by
  cases label with
  | some label => nofun
  | none =>
    rw [declareWord]
    split <;> nofun

theorem readValue_eq_overflow_iff {part : Option Bytes} :
    readValue part = .error .negationOverflow ↔
      ∃ bytes ∈ part, ∃ token, bytes.HoldsToken token ∧
        Numeral.read token = .error .overflow := by
  constructor
  · intro fails
    cases part with
    | none => cases fails
    | some bytes =>
      rw [readValue] at fails
      match single : singleToken .value bytes with
      | .error problem =>
        rw [single] at fails
        cases fails
        exact absurd single singleToken_ne_overflow
      | .ok none => rw [single] at fails; cases fails
      | .ok (some token) =>
        match stands : Numeral.read token with
        | .ok number => simp [single, stands, bind, Except.bind] at fails
        | .error .invalid => simp [single, stands, bind, Except.bind] at fails
        | .error .overflow =>
          exact ⟨bytes, rfl, token, singleToken_eq_ok_some_iff.mp single,
            stands⟩
  · rintro ⟨bytes, present, token, holds, overflows⟩
    cases present
    simp [readValue, singleToken_eq_ok_some_iff.mpr holds, overflows, bind,
      Except.bind]

/-- The label is looked at before the value and the word after it. -/
theorem Parts.declaration_eq_overflow_iff {parts : Parts} :
    parts.declaration = .error .negationOverflow ↔
      (∃ label, readLabel parts.label = .ok label) ∧
        readValue parts.value = .error .negationOverflow := by
  unfold declaration
  cases labelled : readLabel parts.label with
  | error problem =>
    have other : problem ≠ .negationOverflow := by
      rintro rfl
      exact readLabel_ne_overflow labelled
    simp [bind, Except.bind, other]
  | ok label =>
    cases readValue parts.value with
    | error problem => simp [bind, Except.bind]
    | ok value =>
      match single : singleToken .word parts.word with
      | .error problem =>
        have other : problem ≠ .negationOverflow := by
          rintro rfl
          exact singleToken_ne_overflow single
        simp [bind, Except.bind, other]
      | .ok (some word) => simp [bind, Except.bind, declareWord_ne_overflow]
      | .ok none => cases value <;> simp [bind, Except.bind]

section

variable {parts : Parts} (overflows : parts.Overflows)

include overflows

theorem Parts.Overflows.separated : parts.Separated := by
  obtain ⟨⟨label, declaresLabel⟩, wordFree, bytes, present, token, holds,
    reads⟩ := overflows
  refine ⟨declaresLabel.not_mem (.inl rfl), wordFree, ?_⟩
  intro part partPresent mark isMark
  obtain rfl := Option.some.inj (present.symm.trans partPresent)
  exact holds.not_mem isMark.solid (isMark.not_mem_numeral (by simp [reads]))

theorem Parts.Overflows.not_isBlank : ¬ parts.text.IsBlank := by
  obtain ⟨_, _, bytes, present, token, holds, _⟩ := overflows
  refine fun blank => holds.not_isBlank fun byte member => blank byte ?_
  rw [text, show parts.value = some bytes from present]
  exact List.mem_append_right _
    (List.mem_append_right _ (List.mem_cons_of_mem _ member))

end

/-- A line is broken off exactly if its value overflows. -/
theorem parse_eq_overflow_iff {line : Bytes} :
    parse line = .error .negationOverflow ↔ Overflows line := by
  constructor
  · intro parsed
    rw [parse] at parsed
    split at parsed
    · cases parsed
    split at parsed
    · cases parsed
    next placed =>
    have separated := separated_parts ((Bool.not_eq_true _).mp placed)
    have fails : (parts line).declaration = .error .negationOverflow := by
      cases declared : (parts line).declaration with
      | error problem => rw [declared] at parsed; cases parsed; rfl
      | ok declaration => rw [declared] at parsed; cases parsed
    obtain ⟨⟨label, labelled⟩, valued⟩ :=
      Parts.declaration_eq_overflow_iff.mp fails
    exact ⟨parts line, (parts_cut line).1, ⟨label,
      readLabel_eq_ok_iff.mp labelled⟩, separated.word,
      readValue_eq_overflow_iff.mp valued⟩
  · rintro ⟨written, rfl, overflows⟩
    have separated := overflows.separated
    obtain ⟨label, declaresLabel⟩ := overflows.label
    have fails := Parts.declaration_eq_overflow_iff.mpr
      ⟨⟨label, readLabel_eq_ok_iff.mpr declaresLabel⟩,
        readValue_eq_overflow_iff.mpr overflows.value⟩
    rw [parse, if_neg (all_isSpace_iff.not.mpr overflows.not_isBlank),
      separated.parts_text, separated.hasMisplacedMark_eq_false, fails]
    rfl

/-! ## All lines -/

/-- A line is blank, or it declares what the grammar says, or it is refused with
its number.  The refusal is reported unless the value overflows, which breaks
the reading off.  So all lines that are neither blank nor declare anything are
reported exactly if none of them overflows. -/
theorem parse_outcome (line : Bytes) :
    (parse line = .ok none ↔ line.IsBlank) ∧
    (∀ declaration,
      parse line = .ok (some declaration) ↔ Declares line declaration) ∧
    (¬ line.IsBlank → (∀ declaration, ¬ Declares line declaration) →
      ∃ problem, parse line = .error problem ∧
        (problem.isReported = false ↔ Overflows line) ∧
        ∀ (number : Nat) (lexicon : Lexicon) (rest : List Bytes),
          lexicon.readLines number (line :: rest) =
            .error (.line number problem)) ∧
    (Overflows line →
      ¬ line.IsBlank ∧ ∀ declaration, ¬ Declares line declaration) := by
  refine ⟨parse_eq_ok_none_iff, fun _ => parse_eq_ok_some_iff, ?_, ?_⟩
  · intro notBlank declaresNothing
    cases outcome : parse line with
    | ok result =>
      cases result with
      | none => exact absurd (parse_eq_ok_none_iff.mp outcome) notBlank
      | some declaration =>
        exact absurd (parse_eq_ok_some_iff.mp outcome)
          (declaresNothing declaration)
    | error problem =>
      refine ⟨problem, rfl, ?_, ?_⟩
      · rw [Problem.isReported_eq_false_iff, ← parse_eq_overflow_iff, outcome,
          Except.error.injEq]
      · intro number lexicon rest
        rw [Lexicon.readLines, Lexicon.readLine, outcome]
  · intro overflows
    have broken := parse_eq_overflow_iff.mpr overflows
    refine ⟨fun blank => ?_, fun declaration declares => ?_⟩
    · cases broken.symm.trans (parse_eq_ok_none_iff.mpr blank)
    · cases broken.symm.trans (parse_eq_ok_some_iff.mpr declares)

/-- The least value behind two minus signs breaks the reading off. -/
theorem not_isReported_negatedLeast :
    let line := Bytes.ofString "x = --9223372036854775808"
    ¬ line.IsBlank ∧ (∀ declaration, ¬ Declares line declaration) ∧
      ∀ problem, parse line = .error problem → problem.isReported = false := by
  have broken : parse (Bytes.ofString "x = --9223372036854775808") =
      .error .negationOverflow := by
    rw [Bytes.ofString_eq]
    rfl
  intro line
  refine ⟨fun blank => ?_, fun declaration declares => ?_, ?_⟩
  · cases broken.symm.trans (parse_eq_ok_none_iff.mpr blank)
  · cases broken.symm.trans (parse_eq_ok_some_iff.mpr declares)
  · intro problem fails
    cases broken.symm.trans fails
    rfl

/-- A value mark in front of the label mark belongs to the label and spoils
it. -/
example : parse [97, 61, 98, 126, 99] = .error (.invalidLabel "a=b" false) := by
  decide

end Line

end WordSwitch
