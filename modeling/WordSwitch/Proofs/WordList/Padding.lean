import WordSwitch.Proofs.WordList.Grammar

/-!
# ASCII whitespace around a line

ASCII whitespace around a line comes to stand around its first and its last
part.  It adds no token and no mark to them, so whatever the line declares, or
whatever it is refused for, stays the same.
-/

namespace WordSwitch

namespace Line

/-- Some bytes with ASCII whitespace in front of them and behind them. -/
def Padded (bytes padded : Bytes) : Prop :=
  ∃ before after : Bytes,
    before.IsBlank ∧ after.IsBlank ∧ padded = before ++ bytes ++ after

theorem Padded.refl (bytes : Bytes) : Padded bytes bytes :=
  ⟨[], [], nofun, nofun, by simp⟩

section

variable {bytes padded : Bytes}

theorem Padded.tokens_eq (pads : Padded bytes padded) :
    padded.tokens = bytes.tokens := by
  obtain ⟨before, after, blankBefore, blankAfter, rfl⟩ := pads
  rw [Bytes.tokens_append_blank _ blankAfter,
    Bytes.tokens_append_of_blank blankBefore]

theorem Padded.all_isSpace_eq (pads : Padded bytes padded) :
    padded.all Byte.isSpace = bytes.all Byte.isSpace := by
  obtain ⟨before, after, blankBefore, blankAfter, rfl⟩ := pads
  rw [List.all_append, List.all_append, all_isSpace_iff.mpr blankBefore,
    all_isSpace_iff.mpr blankAfter, Bool.true_and, Bool.and_true]

theorem Padded.contains_eq
    (pads : Padded bytes padded)
    {mark : UInt8}
    (isMark : IsMark mark) :
    padded.contains mark = bytes.contains mark := by
  obtain ⟨before, after, blankBefore, blankAfter, rfl⟩ := pads
  rw [Bool.eq_iff_iff, List.contains_iff_mem, List.contains_iff_mem,
    List.mem_append, List.mem_append]
  simp [blankBefore.not_mem isMark.solid, blankAfter.not_mem isMark.solid]

theorem Padded.singleToken_eq (pads : Padded bytes padded) (part : Part) :
    singleToken part padded = singleToken part bytes := by
  rw [singleToken, singleToken, pads.tokens_eq]

end

/-! ## Parts -/

/-- Parts around which ASCII whitespace is put. -/
structure Parts.Padded (parts padded : Parts) : Prop where
  label : Option.Rel Line.Padded parts.label padded.label
  word : Line.Padded parts.word padded.word
  value : Option.Rel Line.Padded parts.value padded.value

/-- ASCII whitespace around a line stands around its parts. -/
theorem Padded.parts
    {line padded : Bytes}
    (pads : Padded line padded) :
    (parts line).Padded (parts padded) := by
  obtain ⟨before, after, blankBefore, blankAfter, rfl⟩ := pads
  have absentBefore : ∀ {mark}, IsMark mark → mark ∉ before :=
    fun isMark => blankBefore.not_mem isMark.solid
  have absentAfter : ∀ {mark}, IsMark mark → mark ∉ after :=
    fun isMark => blankAfter.not_mem isMark.solid
  have inFront : ∀ bytes, Padded bytes (before ++ bytes) :=
    fun bytes => ⟨before, [], blankBefore, nofun, by simp⟩
  have behind : ∀ bytes, Padded bytes (bytes ++ after) :=
    fun bytes => ⟨[], after, nofun, blankAfter, by simp⟩
  have around : ∀ bytes, Padded bytes (before ++ bytes ++ after) :=
    fun bytes => ⟨before, after, blankBefore, blankAfter, rfl⟩
  unfold Line.parts
  rw [Bytes.cutAt_append_of_not_mem_right (absentAfter (.inl rfl)),
    Bytes.cutAt_append_of_not_mem_left (absentBefore (.inl rfl))]
  cases Bytes.cutAt labelMark line with
  | none =>
    simp only [Option.map_none]
    rw [Bytes.cutAt_append_of_not_mem_right (absentAfter (.inr rfl)),
      Bytes.cutAt_append_of_not_mem_left (absentBefore (.inr rfl))]
    cases Bytes.cutAt valueMark line with
    | none => exact ⟨.none, around line, .none⟩
    | some cut => exact ⟨.none, inFront cut.1, .some (behind cut.2)⟩
  | some labelCut =>
    simp only [Option.map_some]
    rw [Bytes.cutAt_append_of_not_mem_right (absentAfter (.inr rfl))]
    cases Bytes.cutAt valueMark labelCut.2 with
    | none => exact ⟨.some (inFront labelCut.1), behind labelCut.2, .none⟩
    | some cut =>
      exact ⟨.some (inFront labelCut.1), .refl cut.1, .some (behind cut.2)⟩

section

variable {parts padded : Parts}

theorem Parts.Padded.hasMisplacedMark_eq (pads : parts.Padded padded) :
    padded.hasMisplacedMark = parts.hasMisplacedMark := by
  obtain ⟨label, word, value⟩ := parts
  obtain ⟨paddedLabel, paddedWord, paddedValue⟩ := padded
  obtain ⟨_, wordPads, valuePads⟩ := pads
  have word_eq := wordPads.contains_eq (.inl rfl)
  cases valuePads with
  | none => simp only [hasMisplacedMark, word_eq, Option.any_none]
  | some pads =>
    simp only [hasMisplacedMark, word_eq, Option.any_some,
      pads.contains_eq (.inl rfl), pads.contains_eq (.inr rfl)]

theorem readLabel_eq_of_padded
    {part padded : Option Bytes}
    (pads : Option.Rel Padded part padded) :
    readLabel padded = readLabel part := by
  cases pads with
  | none => rfl
  | some pads => rw [readLabel, readLabel, pads.singleToken_eq]

theorem readValue_eq_of_padded
    {part padded : Option Bytes}
    (pads : Option.Rel Padded part padded) :
    readValue padded = readValue part := by
  cases pads with
  | none => rfl
  | some pads => rw [readValue, readValue, pads.singleToken_eq]

theorem Parts.Padded.declaration_eq (pads : parts.Padded padded) :
    padded.declaration = parts.declaration := by
  rw [declaration, declaration, readLabel_eq_of_padded pads.label,
    readValue_eq_of_padded pads.value, pads.word.singleToken_eq]

end

/-- ASCII whitespace around a line changes neither what it declares nor what it
is refused for. -/
theorem Padded.parse_eq
    {line padded : Bytes}
    (pads : Padded line padded) :
    parse padded = parse line := by
  rw [parse, parse, pads.all_isSpace_eq, pads.parts.hasMisplacedMark_eq,
    pads.parts.declaration_eq]

end Line

end WordSwitch
