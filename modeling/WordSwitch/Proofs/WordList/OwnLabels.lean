import WordSwitch.Proofs.Chunk.Case
import WordSwitch.Proofs.WordList.Identifiers

/-!
# Labels that words get of their own

A word without a label gets one in which two underscores stand for an
underscore and a single one stands for a hyphen.  Read from left to right, such
a label gives back the word exactly if no hyphen of the word stands in front of
a hyphen or an underscore, since two underscores in a row always read as one.
Every other word shares its label with the word that the label reads back as.
-/

namespace WordSwitch

namespace Label

/-! ## Reading a label back -/

/-- Undo the escape of a word: two underscores read as an underscore, and one
that stands alone as a hyphen. -/
def unescape : Bytes → Bytes
  | [] => []
  | [byte] => if byte = 95 then [45] else [byte]
  | byte :: next :: rest =>
    if byte = 95 then
      if next = 95 then 95 :: unescape rest else 45 :: unescape (next :: rest)
    else
      byte :: unescape (next :: rest)

/-- The word that a label reads back as, its characters taken as the bytes with
their codes. -/
def readBack (label : String) : Bytes :=
  unescape (label.toList.map fun char => UInt8.ofNat char.toNat)

/-- No hyphen stands in front of a hyphen or an underscore. -/
def HyphensApart (word : Bytes) : Prop :=
  word.IsChain fun first second => first = 45 → second ≠ 45 ∧ second ≠ 95

instance (word : Bytes) : Decidable (HyphensApart word) :=
  inferInstanceAs (Decidable (word.IsChain _))

theorem map_toNat_characters (bytes : Bytes) :
    ((Bytes.characters bytes).toList.map fun char =>
      UInt8.ofNat char.toNat) = bytes := by
  have kept : ∀ byte : UInt8,
      UInt8.ofNat (Char.ofNat byte.toNat).toNat = byte :=
    Byte.forall_of_codes (by decide +kernel)
  rw [Bytes.characters, String.toList_ofList, List.map_map]
  exact (List.map_congr_left fun byte _ => kept byte).trans (List.map_id bytes)

/-- The label of a word reads back as what undoes the escape of the word. -/
theorem readBack_ofWord (word : Bytes) :
    readBack (ofWord word) = unescape (word.flatMap escapeByte) := by
  rw [readBack, ofWord, map_toNat_characters]

/-- Labels that words get of their own are the same if the escapes are. -/
theorem ofWord_eq_iff_flatMap {first second : Bytes} :
    ofWord first = ofWord second ↔
      first.flatMap escapeByte = second.flatMap escapeByte := by
  constructor
  · intro equal
    rw [← map_toNat_characters (first.flatMap escapeByte),
      ← map_toNat_characters (second.flatMap escapeByte)]
    exact congrArg (fun label : String =>
      label.toList.map fun char => UInt8.ofNat char.toNat) equal
  · exact congrArg Bytes.characters

/-! ## Words that are read back -/

theorem unescape_cons_of_ne
    {byte : UInt8}
    (noUnderscore : byte ≠ 95)
    (rest : Bytes) :
    unescape (byte :: rest) = byte :: unescape rest := by
  cases rest <;> simp [unescape, noUnderscore]

/-- An underscore that stands alone reads as a hyphen. -/
theorem unescape_underscore
    {rest : Bytes}
    (alone : rest.head? ≠ some 95) :
    unescape (95 :: rest) = 45 :: unescape rest := by
  cases rest with
  | nil => rfl
  | cons next rest =>
    have different : next ≠ 95 := fun equal => alone (by rw [equal]; rfl)
    simp [unescape, different]

theorem escapeByte_of_ne
    {byte : UInt8}
    (noUnderscore : byte ≠ 95)
    (noHyphen : byte ≠ 45) :
    escapeByte byte = [byte] := by
  simp [escapeByte, noUnderscore, noHyphen]

/-- An escape starts with an underscore if the word starts with a hyphen or an
underscore. -/
theorem head?_flatMap_escapeByte (word : Bytes) :
    (word.flatMap escapeByte).head? = some 95 ↔
      word.head? = some 45 ∨ word.head? = some 95 := by
  cases word with
  | nil => simp
  | cons byte rest =>
    by_cases isUnderscore : byte = 95
    · simp [isUnderscore, escapeByte]
    · by_cases isHyphen : byte = 45
      · simp [isHyphen, escapeByte]
      · simp [escapeByte_of_ne isUnderscore isHyphen, isUnderscore, isHyphen]

theorem hyphensApart_cons_of_ne
    {byte : UInt8}
    (noHyphen : byte ≠ 45)
    {rest : Bytes} :
    HyphensApart (byte :: rest) ↔ HyphensApart rest := by
  cases rest <;> simp [HyphensApart, noHyphen]

theorem hyphensApart_hyphen {rest : Bytes} :
    HyphensApart (45 :: rest) ↔
      ¬(rest.head? = some 45 ∨ rest.head? = some 95) ∧ HyphensApart rest := by
  cases rest <;> simp [HyphensApart]

/-- The escape of a word is undone exactly if its hyphens are apart from what
an underscore stands for. -/
theorem unescape_flatMap_iff (word : Bytes) :
    unescape (word.flatMap escapeByte) = word ↔ HyphensApart word := by
  induction word with
  | nil => simp [unescape, HyphensApart]
  | cons byte rest hypothesis =>
    rw [List.flatMap_cons]
    by_cases isUnderscore : byte = 95
    · subst isUnderscore
      rw [hyphensApart_cons_of_ne (by decide), ← hypothesis]
      simp [escapeByte, unescape]
    by_cases isHyphen : byte = 45
    · subst isHyphen
      have escaped : escapeByte 45 ++ rest.flatMap escapeByte =
          95 :: rest.flatMap escapeByte := rfl
      rw [escaped, hyphensApart_hyphen, ← hypothesis,
        ← head?_flatMap_escapeByte]
      by_cases joined : (rest.flatMap escapeByte).head? = some 95
      · obtain ⟨later, later_eq⟩ := List.head?_eq_some_iff.mp joined
        simp [later_eq, unescape]
      · rw [unescape_underscore joined]
        simp [joined]
    · rw [hyphensApart_cons_of_ne isHyphen, ← hypothesis,
        escapeByte_of_ne isUnderscore isHyphen, List.singleton_append,
        unescape_cons_of_ne isUnderscore, List.cons.injEq]
      simp

/-! ## The word that a label reads back as -/

theorem hyphen_not_mem_flatMap_escapeByte (word : Bytes) :
    45 ∉ word.flatMap escapeByte := by
  rw [List.mem_flatMap]
  rintro ⟨byte, _, member⟩
  unfold escapeByte at member
  split at member
  · revert member
    decide
  · split at member
    · revert member
      decide
    · next noHyphen =>
      rw [List.mem_singleton] at member
      exact noHyphen (by rw [← member]; rfl)

/-- A text without hyphens is the escape of what it reads back as. -/
theorem flatMap_escapeByte_unescape
    {text : Bytes}
    (noHyphen : 45 ∉ text) :
    (unescape text).flatMap escapeByte = text := by
  fun_induction unescape text with
  | case1 => rfl
  | case2 => rfl
  | case3 byte other =>
    have different : byte ≠ 45 := fun equal => noHyphen (by simp [equal])
    simp [escapeByte_of_ne other different]
  | case4 rest hypothesis =>
    have later := hypothesis fun member => noHyphen (by simp [member])
    simpa [escapeByte] using later
  | case5 next rest other hypothesis =>
    have later := hypothesis fun member =>
      noHyphen (List.mem_cons_of_mem _ member)
    simpa [escapeByte] using later
  | case6 byte next rest other hypothesis =>
    have different : byte ≠ 45 := fun equal => noHyphen (by simp [equal])
    have later := hypothesis fun member =>
      noHyphen (List.mem_cons_of_mem _ member)
    simpa [escapeByte_of_ne other different] using later

/-- A word and what its label reads back as get the same label. -/
theorem ofWord_readBack (word : Bytes) :
    ofWord (readBack (ofWord word)) = ofWord word := by
  rw [readBack_ofWord, ofWord_eq_iff_flatMap]
  exact flatMap_escapeByte_unescape (hyphen_not_mem_flatMap_escapeByte word)

/-- Words get the same label exactly if their labels read back alike. -/
theorem ofWord_eq_iff {first second : Bytes} :
    ofWord first = ofWord second ↔
      readBack (ofWord first) = readBack (ofWord second) := by
  constructor
  · exact congrArg readBack
  · intro equal
    rw [← ofWord_readBack first, equal, ofWord_readBack]

/-- What a label reads back as is read back. -/
theorem hyphensApart_readBack (word : Bytes) :
    HyphensApart (readBack (ofWord word)) := by
  rw [← unescape_flatMap_iff, ← readBack_ofWord, ofWord_readBack]

/-- Two underscores in a row read as one, wherever they come from. -/
theorem not_readBack_doubleHyphen :
    readBack (ofWord [45, 45]) ≠ [45, 45] ∧
      ofWord [45, 45] = ofWord [95] := by
  decide

end Label

/-! ## Words that are read without labels -/

namespace Line

/-- Whether a line declares a word, with any label and value. -/
def mentions (word line : Bytes) : Bool :=
  match declared? line with
  | some (.entry declared _ _) => declared == word
  | _ => false

theorem mentions_eq_true_iff {word line : Bytes} :
    mentions word line = true ↔
      ∃ label value, declared? line = some (.entry word label value) := by
  unfold mentions
  split
  · next declared label value declares => simp [declares]
  · next other =>
    constructor
    · nofun
    · rintro ⟨label, value, declares⟩
      exact (other _ _ _ declares).elim

/-- A line without a label declares the own label of its word. -/
theorem eq_ofWord_of_unlabelled
    {line word : Bytes}
    {label : String}
    {value : Option Int}
    (unlabelled : (parts line).label = none)
    (declares : declared? line = some (.entry word label value)) :
    label = Label.ofWord word := by
  obtain ⟨written, rfl, written_declares⟩ :=
    parse_eq_ok_some_iff.mp (declared?_eq_some_iff.mp declares)
  rw [written_declares.separated.parts_text] at unlabelled
  cases written_declares with
  | labelled declaresLabel =>
    cases declaresLabel
    cases unlabelled
  | unlabelled => rfl

end Line

namespace Lexicon

/-- The last line of a source that declares a word has no label for it. -/
def ReadsUnlabelled (source : Source) (word : Bytes) : Prop :=
  ∃ line, (source.lines.filter (Line.mentions word)).getLast? = some line ∧
    (Line.parts line).label = none

/-- After the last line that declares a word, no line does. -/
theorem exists_later_of_getLast?
    {lines : List Bytes}
    {word line : Bytes}
    (last : (lines.filter (Line.mentions word)).getLast? = some line) :
    ∃ earlier later, lines = earlier ++ line :: later ∧
      Line.mentions word line = true ∧
      ∀ other ∈ later, Line.mentions word other = false := by
  obtain ⟨_, filtered⟩ := List.getLast?_eq_some_iff.mp last
  obtain ⟨front, back, rfl, _, filtered⟩ := List.filter_eq_append_iff.mp filtered
  obtain ⟨silent, later, rfl, _, mentions, filtered⟩ :=
    List.filter_eq_cons_iff.mp filtered
  refine ⟨front ++ silent, later, by simp, mentions, ?_⟩
  simpa using filtered

/-- A declaration gives a label to the word that it is about, and to no other
word. -/
theorem get?_words_of_declare?
    {lexicon next : Lexicon}
    {declaration : Declaration}
    (followed : lexicon.declare? declaration = some next)
    (word : Bytes) :
    (∀ label value, declaration = .entry word label value →
      next.words.get? word = some label) ∧
    ((∀ label value, declaration ≠ .entry word label value) →
      next.words.get? word = lexicon.words.get? word) := by
  cases declaration with
  | entry declared label value =>
    obtain ⟨⟨chosen, _⟩, outcome, rfl⟩ := Option.map_eq_some_iff.mp followed
    obtain ⟨supply, _, rfl⟩ := eq_of_declareWord? outcome
    refine ⟨?_, ?_⟩
    · rintro _ _ ⟨⟩
      exact OrderedMap.get?_assign_self lexicon.words word label
    · intro other
      have different : word ≠ declared := fun equal =>
        other label value (by rw [equal])
      exact OrderedMap.get?_assign_of_ne lexicon.words different label
  | fallback label value =>
    obtain rfl := Option.some.inj followed
    exact ⟨nofun, fun _ => rfl⟩

/-- Lines that do not declare a word leave its label alone. -/
theorem get?_words_of_later
    {lines : List Bytes}
    {word : Bytes}
    (silent : ∀ line ∈ lines, Line.mentions word line = false)
    {lexicon result : Lexicon}
    (followed : (lines.filterMap Line.declared?).foldlM declare? lexicon =
      some result) :
    result.words.get? word = lexicon.words.get? word := by
  induction lines generalizing lexicon with
  | nil =>
    obtain rfl := Option.some.inj followed
    rfl
  | cons line rest hypothesis =>
    rw [List.forall_mem_cons] at silent
    obtain ⟨lineSilent, restSilent⟩ := silent
    cases declares : Line.declared? line with
    | none =>
      rw [List.filterMap_cons_none declares] at followed
      exact hypothesis restSilent followed
    | some declaration =>
      rw [List.filterMap_cons_some declares, List.foldlM_cons] at followed
      obtain ⟨next, step, followed⟩ := Option.bind_eq_some_iff.mp followed
      rw [hypothesis restSilent followed]
      refine (get?_words_of_declare? step word).2 ?_
      rintro label value rfl
      have mentions := Line.mentions_eq_true_iff.mpr ⟨label, value, declares⟩
      rw [lineSilent] at mentions
      cases mentions

/-- A word that is read without a label has its own one. -/
theorem get?_words_of_readsUnlabelled
    {source : Source}
    {lexicon : Lexicon}
    (read : ofSource source = .ok lexicon)
    {word : Bytes}
    (unlabelled : ReadsUnlabelled source word) :
    lexicon.words.get? word = some (Label.ofWord word) := by
  obtain ⟨line, last, noLabel⟩ := unlabelled
  obtain ⟨earlier, later, lines_eq, mentions, silent⟩ :=
    exists_later_of_getLast? last
  obtain ⟨label, value, declares⟩ := Line.mentions_eq_true_iff.mp mentions
  have followed := ofDeclarations?_of_ofSource read
  rw [ofDeclarations?, lines_eq, List.filterMap_append,
    List.filterMap_cons_some declares, List.foldlM_append] at followed
  obtain ⟨before, _, followed⟩ := Option.bind_eq_some_iff.mp followed
  rw [List.foldlM_cons] at followed
  obtain ⟨next, step, followed⟩ := Option.bind_eq_some_iff.mp followed
  rw [get?_words_of_later silent followed,
    (get?_words_of_declare? step word).1 label value rfl,
    Line.eq_ofWord_of_unlabelled noLabel declares]

/-- The entry of a word that is read without a label has the word's own
label. -/
theorem label_of_readsUnlabelled
    {source : Source}
    {lexicon : Lexicon}
    (read : ofSource source = .ok lexicon)
    {entry : Entry}
    (listed : entry ∈ lexicon.entries)
    (unlabelled : ReadsUnlabelled source entry.word) :
    entry.label = Label.ofWord entry.word := by
  have once := assignedOnce_of_ofSource read
  obtain ⟨pair, member, rfl⟩ := List.mem_map.mp listed
  have found := (OrderedMap.mem_toList_iff once.words).mp member
  rw [get?_words_of_readsUnlabelled read unlabelled] at found
  exact (Option.some.inj found).symm

/-- Entries with the same label have the same value. -/
theorem enumerator_eq_iff
    {lexicon : Lexicon}
    {first second : Entry}
    (first_listed : first ∈ lexicon.entries)
    (second_listed : second ∈ lexicon.entries) :
    first.enumerator = second.enumerator ↔ first.label = second.label := by
  obtain ⟨firstPair, _, rfl⟩ := List.mem_map.mp first_listed
  obtain ⟨secondPair, _, rfl⟩ := List.mem_map.mp second_listed
  constructor
  · exact congrArg Enumerator.label
  · intro equal
    change firstPair.2 = secondPair.2 at equal
    simp [Entry.enumerator, equal]

/-- The own label of a word reads back as the word exactly if the word has no
hyphen in front of a hyphen or an underscore, and else as a word of that kind
with the same label.  So words have the same own label exactly if these read
back alike, and words that are read from a source without labels share
enumerator and value exactly then. -/
theorem ownLabels_read_back
    {source : Source}
    {lexicon : Lexicon}
    (read : ofSource source = .ok lexicon) :
    (∀ word, Label.readBack (Label.ofWord word) = word ↔
      Label.HyphensApart word) ∧
    (∀ word, Label.HyphensApart (Label.readBack (Label.ofWord word)) ∧
      Label.ofWord (Label.readBack (Label.ofWord word)) =
        Label.ofWord word) ∧
    (∀ first second, Label.ofWord first = Label.ofWord second ↔
      Label.readBack (Label.ofWord first) =
        Label.readBack (Label.ofWord second)) ∧
    ∀ first ∈ lexicon.entries, ∀ second ∈ lexicon.entries,
      ReadsUnlabelled source first.word →
      ReadsUnlabelled source second.word →
      (first.enumerator = second.enumerator ↔
        Label.readBack (Label.ofWord first.word) =
          Label.readBack (Label.ofWord second.word)) := by
  refine ⟨?_, ?_, fun _ _ => Label.ofWord_eq_iff, ?_⟩
  · intro word
    rw [Label.readBack_ofWord, Label.unescape_flatMap_iff]
  · exact fun word =>
      ⟨Label.hyphensApart_readBack word, Label.ofWord_readBack word⟩
  · intro first first_listed second second_listed first_own second_own
    rw [enumerator_eq_iff first_listed second_listed,
      label_of_readsUnlabelled read first_listed first_own,
      label_of_readsUnlabelled read second_listed second_own]
    exact Label.ofWord_eq_iff

/-- Two words that differ in the order of a hyphen and an underscore, one of
them declared with a label before. -/
def mixedHyphens : Source :=
  .ofBytes (Bytes.ofString "First ~ a-_b\na_-b = 3\na-b_c\na-_b\n")

theorem ownLabels_read_back_mixedHyphens :
    ∃ lexicon, ofSource mixedHyphens = .ok lexicon ∧
      ReadsUnlabelled mixedHyphens [97, 45, 95, 98] ∧
      ReadsUnlabelled mixedHyphens [97, 95, 45, 98] ∧
      ⟨[97, 45, 95, 98], "a___b", 5⟩ ∈ lexicon.entries ∧
      ⟨[97, 95, 45, 98], "a___b", 5⟩ ∈ lexicon.entries ∧
      Label.readBack (Label.ofWord [97, 45, 95, 98]) =
        Label.readBack (Label.ofWord [97, 95, 45, 98]) := by
  have lines_eq : mixedHyphens.lines =
      [[70, 105, 114, 115, 116, 32, 126, 32, 97, 45, 95, 98],
        [97, 95, 45, 98, 32, 61, 32, 51], [97, 45, 98, 95, 99],
        [97, 45, 95, 98]] := by
    rw [mixedHyphens, Bytes.ofString_eq]
    rfl
  obtain ⟨lexicon, lexicon_eq⟩ : ∃ lexicon : Lexicon, lexicon =
      ⟨⟨[([97, 45, 95, 98], "a___b"), ([97, 95, 45, 98], "a___b"),
          ([97, 45, 98, 95, 99], "a_b__c")]⟩,
        ⟨[("First", 0), ("a___b", 5), ("a_b__c", 4)]⟩,
        ⟨"Unknown", -1⟩, ⟨some 6⟩⟩ := ⟨_, rfl⟩
  have read : ofSource mixedHyphens = .ok lexicon := by
    rw [lexicon_eq, mixedHyphens, Bytes.ofString_eq]
    rfl
  have hyphenFirst : ReadsUnlabelled mixedHyphens [97, 45, 95, 98] :=
    ⟨[97, 45, 95, 98], by rw [lines_eq]; decide, by decide⟩
  have underscoreFirst : ReadsUnlabelled mixedHyphens [97, 95, 45, 98] :=
    ⟨[97, 95, 45, 98, 32, 61, 32, 51], by rw [lines_eq]; decide, by decide⟩
  have first_listed : ⟨[97, 45, 95, 98], "a___b", 5⟩ ∈ lexicon.entries := by
    rw [lexicon_eq]
    decide
  have second_listed : ⟨[97, 95, 45, 98], "a___b", 5⟩ ∈ lexicon.entries := by
    rw [lexicon_eq]
    decide
  obtain ⟨_, _, _, shares⟩ := ownLabels_read_back read
  exact ⟨lexicon, read, hyphenFirst, underscoreFirst, first_listed,
    second_listed, (shares _ first_listed _ second_listed hyphenFirst
      underscoreFirst).mp rfl⟩

end Lexicon

end WordSwitch
