import WordSwitch.Proofs.Lexicon.Label
import WordSwitch.Proofs.Source.Preprocess

/-!
# Lexing the parts of a line

A part of a line that ends where a lexeme ends gives its own tokens, whatever
comes after it.  Names and numbers give one token if what comes next does not
continue them.
-/

namespace WordSwitch
namespace Source

namespace Lexeme

theorem extendRun_append
    (char : Char)
    {lexemes : List Lexeme}
    (nonempty : lexemes ≠ [])
    (others : List Lexeme) :
    extendRun char (lexemes ++ others) = extendRun char lexemes ++ others := by
  cases lexemes with
  | nil => exact absurd rfl nonempty
  | cons first rest => cases first <;> rfl

theorem extendRun_ne_nil (char : Char) (lexemes : List Lexeme) :
    extendRun char lexemes ≠ [] := by
  unfold extendRun
  split <;> exact List.cons_ne_nil _ _

/-- A run ends where a character that does not continue it stands. -/
theorem ofLine_run
    {chars rest : List Char}
    (nonempty : chars ≠ [])
    (continues : ∀ char ∈ chars, Label.isLater char = true)
    (ends : rest.head?.any Label.isLater = false) :
    ofLine .between (chars ++ rest) = run chars :: ofLine .between rest := by
  induction chars with
  | nil => exact absurd rfl nonempty
  | cons char more hypothesis =>
    have first := continues char List.mem_cons_self
    have others := fun other member =>
      continues other (List.mem_cons_of_mem char member)
    cases more with
    | nil =>
      rw [List.singleton_append, ofLine, if_pos first, ends]
      rfl
    | cons second more =>
      have second_continues : (second :: more ++ rest).head?.any
          Label.isLater = true := others second List.mem_cons_self
      rw [List.cons_append, ofLine, if_pos first, if_pos second_continues,
        hypothesis (List.cons_ne_nil _ _) others, extendRun]

end Lexeme

/-- Whether a token may stand in a line that is no directive. -/
def Token.isOrdinary (token : Token) : Bool :=
  token != .atom .invalid && token != .atom (.mark '#')

/-- Some characters of a line give some tokens, whatever comes after them. -/
structure Lexes (text : List Char) (tokens : List Token) : Prop where
  oneLine : '\n' ∉ text
  ordinary : tokens.all Token.isOrdinary = true
  gives : ∃ lexemes : List Lexeme, lexemes.map Token.ofLexeme = tokens ∧
    ∀ rest, Lexeme.ofLine .between (text ++ rest) =
      lexemes ++ Lexeme.ofLine .between rest

/-- A line gives some tokens. -/
structure LexesLine (line : List Char) (tokens : List Token) : Prop where
  oneLine : '\n' ∉ line
  gives : Token.ofLine line = tokens

theorem ofLine_of_not_mem
    {line : List Char}
    {tokens : List Token}
    (written : Token.written line = tokens)
    (valid : .atom .invalid ∉ tokens) :
    Token.ofLine line = tokens := by
  rw [Token.ofLine, written, if_neg valid]

namespace Lexes

theorem nil : Lexes [] [] :=
  ⟨List.not_mem_nil, rfl, [], rfl, fun _ => rfl⟩

theorem append
    {first second : List Char}
    {firstTokens secondTokens : List Token}
    (first_lexes : Lexes first firstTokens)
    (second_lexes : Lexes second secondTokens) :
    Lexes (first ++ second) (firstTokens ++ secondTokens) := by
  obtain ⟨firstLexemes, rfl, first_eq⟩ := first_lexes.gives
  obtain ⟨secondLexemes, rfl, second_eq⟩ := second_lexes.gives
  refine ⟨?oneLine, ?ordinary,
    firstLexemes ++ secondLexemes, List.map_append, ?gives⟩
  case oneLine =>
    rw [List.mem_append, not_or]
    exact ⟨first_lexes.oneLine, second_lexes.oneLine⟩
  case ordinary =>
    rw [List.all_append, first_lexes.ordinary, second_lexes.ordinary]
    rfl
  case gives =>
    intro rest
    rw [List.append_assoc, first_eq, second_eq, List.append_assoc]

theorem spaces (count : Nat) : Lexes (List.replicate count ' ') [] := by
  induction count with
  | zero => exact nil
  | succ count hypothesis =>
    have space : Lexes [' '] [] := ⟨by decide, rfl, [], rfl, fun _ => rfl⟩
    exact space.append hypothesis

theorem not_mem_of_all_isOrdinary
    {tokens : List Token}
    (ordinary : tokens.all Token.isOrdinary = true)
    {token : Token}
    (special : token.isOrdinary = false) :
    token ∉ tokens := by
  intro member
  have isOrdinary := List.all_eq_true.mp ordinary token member
  exact Bool.false_ne_true (special.symm.trans isOrdinary)

/-- A line of ordinary tokens includes no header, so it is read as such. -/
theorem line
    {text : List Char}
    {tokens : List Token}
    (lexes : Lexes text tokens) :
    LexesLine text tokens := by
  obtain ⟨oneLine, ordinary, lexemes, rfl, ofLine_eq⟩ := lexes
  have alone := ofLine_eq []
  rw [List.append_nil] at alone
  have noDirective : text.dropPrefix? "#include ".toList = none := by
    rw [Option.eq_none_iff_forall_ne_some]
    intro written includes
    obtain ⟨start, rfl, same⟩ := List.dropPrefix?_eq_some_iff.mp includes
    have start_eq : start = "#include ".toList := eq_of_beq same
    subst start_eq
    have marked : Lexeme.ofLine .between ("#include ".toList ++ written) =
        .mark '#' :: Lexeme.ofLine .between ("include ".toList ++ written) := rfl
    rw [marked] at alone
    have directive : Token.atom (.mark '#') ∈ lexemes.map Token.ofLexeme := by
      have nothing : Lexeme.ofLine .between [] = [] := rfl
      rw [nothing, List.append_nil] at alone
      exact alone ▸ List.mem_cons_self
    exact not_mem_of_all_isOrdinary ordinary rfl directive
  refine ⟨oneLine, ofLine_of_not_mem ?_
    (not_mem_of_all_isOrdinary ordinary rfl)⟩
  rw [Token.written, noDirective]
  dsimp only
  rw [alone]
  exact congrArg _ (List.append_nil _)

/-- Whether a text begins with something that does not continue a run. -/
def endsRun : List Char → Bool
  | [] => false
  | next :: _ => !Label.isLater next

theorem newline_not_mem
    {chars : List Char}
    (continues : ∀ char ∈ chars, Label.isLater char = true) :
    '\n' ∉ chars := by
  intro member
  have impossible := continues '\n' member
  revert impossible
  decide

/-- A run gives one token if what comes next does not continue it. -/
theorem run_append
    {chars text : List Char}
    {tokens : List Token}
    (nonempty : chars ≠ [])
    (continues : ∀ char ∈ chars, Label.isLater char = true)
    {token : Token}
    (denotes : Token.ofLexeme (.run chars) = token)
    (token_ordinary : token.isOrdinary = true)
    (ends : endsRun text = true)
    (lexes : Lexes text tokens) :
    Lexes (chars ++ text) (token :: tokens) := by
  obtain ⟨oneLine, ordinary, lexemes, rfl, ofLine_eq⟩ := lexes
  refine ⟨?oneLine, ?ordinary, .run chars :: lexemes,
    by rw [List.map_cons, denotes], ?gives⟩
  case oneLine =>
    rw [List.mem_append, not_or]
    exact ⟨newline_not_mem continues, oneLine⟩
  case ordinary =>
    rw [List.all_cons, token_ordinary, ordinary]
    rfl
  case gives =>
    intro rest
    have follows : (text ++ rest).head?.any Label.isLater = false := by
      cases text with
      | nil => cases ends
      | cons next more => simpa [endsRun] using ends
    rw [List.append_assoc, Lexeme.ofLine_run nonempty continues follows,
      ofLine_eq]
    rfl

end Lexes

/-! ## Names -/

/-- A text that is one name. -/
structure IsName (name : String) : Prop where
  nonempty : name.toList ≠ []
  continues : ∀ char ∈ name.toList, Label.isLater char = true
  notNumeral : name.toList.head?.any Char.isDigit = false

theorem ofLexeme_run_name {name : String} (isName : IsName name) :
    Token.ofLexeme (.run name.toList) = .atom (.word name) := by
  rw [Token.ofLexeme, isName.notNumeral]
  simp

theorem not_isDigit_of_isFirst
    {char : Char}
    (first : Label.isFirst char = true) :
    char.isDigit = false := by
  unfold Label.isFirst at first
  rcases Bool.or_eq_true _ _ |>.mp first with letter | underscore
  · change (decide (char.val ≥ 'A'.val ∧ char.val ≤ 'Z'.val) ||
      decide (char.val ≥ 'a'.val) && decide (char.val ≤ 'z'.val)) = true at letter
    simp only [Bool.or_eq_true, Bool.and_eq_true, decide_eq_true_eq] at letter
    simp only [Char.isDigit]
    grind
  · rw [eq_of_beq underscore]
    decide

theorem isName_of_spellsIdentifier
    {chars : List Char}
    (spells : Label.spellsIdentifier chars = true) :
    IsName (String.ofList chars) := by
  have continues := Label.isLater_of_spellsIdentifier spells
  cases chars with
  | nil => cases spells
  | cons first rest =>
    rw [Label.spellsIdentifier, Bool.and_eq_true] at spells
    refine ⟨by simp, by rwa [String.toList_ofList], ?_⟩
    simpa using not_isDigit_of_isFirst spells.1

theorem isName_of_isIdentifier
    {name : String}
    (identifier : Label.isIdentifier name = true) :
    IsName name := by
  have named := isName_of_spellsIdentifier identifier
  rwa [String.ofList_toList] at named

/-- A name followed by letters, digits or underscores is a name. -/
theorem IsName.append
    {name suffix : String}
    (isName : IsName name)
    (continues : ∀ char ∈ suffix.toList, Label.isLater char = true) :
    IsName (name ++ suffix) := by
  obtain ⟨nonempty, nameContinues, notNumeral⟩ := isName
  refine ⟨by simp [nonempty], ?_, ?_⟩
  · intro char member
    rw [String.toList_append, List.mem_append] at member
    rcases member with inName | inSuffix
    · exact nameContinues char inName
    · exact continues char inSuffix
  · rw [String.toList_append]
    cases chars : name.toList with
    | nil => exact absurd chars nonempty
    | cons first rest =>
      rw [chars] at notNumeral
      exact notNumeral

theorem Lexes.name_append
    {name : String}
    {text : List Char}
    {tokens : List Token}
    (isName : IsName name)
    (ends : endsRun text = true)
    (lexes : Lexes text tokens) :
    Lexes (name.toList ++ text) (.atom (.word name) :: tokens) :=
  run_append isName.nonempty isName.continues (ofLexeme_run_name isName) rfl ends
    lexes

/-! ## Numbers -/

theorem isLater_of_isDigit {char : Char} (digit : char.isDigit = true) :
    Label.isLater char = true := by
  simp [Label.isLater, Char.isAlphanum, digit]

theorem isDigit_of_mem_toString
    {number : Nat}
    {char : Char}
    (member : char ∈ (toString number).toList) :
    char.isDigit = true := by
  rw [Nat.toString_eq_ofList_toDigits, String.toList_ofList] at member
  exact Nat.isDigit_of_mem_toDigits (by omega) (by omega) member

theorem digit?_digitChar {digit : Nat} (small : digit < 10) :
    Token.digit? 10 digit.digitChar = some digit := by
  have all : ∀ value : Fin 10,
      Token.digit? 10 value.val.digitChar = some value.val := by decide
  exact all ⟨digit, small⟩

/-- The decimal digits of a number denote it. -/
theorem number?_toDigits (number : Nat) :
    Token.number? 10 (Nat.toDigits 10 number) = some number := by
  induction number using Nat.strongRecOn with
  | ind number hypothesis =>
    by_cases small : number < 10
    · rw [Nat.toDigits_of_lt_base small]
      simp [Token.number?, digit?_digitChar small]
    · have smaller := hypothesis (number / 10) (by omega)
      rw [Nat.toDigits_of_base_le (by omega) (by omega)]
      unfold Token.number? at smaller ⊢
      rw [List.foldlM_append, smaller]
      have digit_lt : number % 10 < 10 := by omega
      simp [digit?_digitChar digit_lt]
      omega

/-- The digits of a positive number do not begin with a zero. -/
theorem head?_toDigits_ne {number : Nat} (positive : 0 < number) :
    (Nat.toDigits 10 number).head? ≠ some '0' := by
  induction number using Nat.strongRecOn with
  | ind number hypothesis =>
    by_cases small : number < 10
    · have all : ∀ value : Fin 10, 0 < value.val →
          value.val.digitChar ≠ '0' := by decide
      rw [Nat.toDigits_of_lt_base small, List.head?_cons, ne_eq,
        Option.some_inj]
      exact all ⟨number, small⟩ positive
    · rw [Nat.toDigits_of_base_le (by omega) (by omega),
        List.head?_append_of_ne_nil _ Nat.toDigits_ne_nil]
      exact hypothesis (number / 10) (by omega) (by omega)

theorem numeral_toString (number : Nat) :
    Token.numeral (toString number).toList = .numeral number false := by
  rw [Nat.toString_eq_ofList_toDigits, String.toList_ofList]
  have digits := fun char (member : char ∈ Nat.toDigits 10 number) =>
    Nat.isDigit_of_mem_toDigits (by omega) (by omega) member
  unfold Token.numeral
  split
  · next more equal =>
    rw [equal] at digits
    have impossible := digits 'x' (by simp)
    simp at impossible
  · next _ next more equal =>
    exfalso
    rcases Nat.eq_zero_or_pos number with rfl | positive
    · cases equal
    · exact head?_toDigits_ne positive (equal ▸ rfl)
  · rw [number?_toDigits]

theorem ofLexeme_run_number (number : Nat) :
    Token.ofLexeme (.run (toString number).toList) =
      .atom (.numeral number false) := by
  have digits := fun char (member : char ∈ (toString number).toList) =>
    isDigit_of_mem_toString member
  have nonempty : (toString number).toList ≠ [] := by
    rw [Nat.toString_eq_ofList_toDigits, String.toList_ofList]
    exact Nat.toDigits_ne_nil
  have first : (toString number).toList.head?.any Char.isDigit = true := by
    cases written : (toString number).toList with
    | nil => exact absurd written nonempty
    | cons char rest =>
      rw [written] at digits
      simpa using digits char List.mem_cons_self
  rw [Token.ofLexeme, if_pos first, numeral_toString]

theorem Lexes.number_append
    {number : Nat}
    {text : List Char}
    {tokens : List Token}
    (ends : endsRun text = true)
    (lexes : Lexes text tokens) :
    Lexes ((toString number).toList ++ text)
      (.atom (.numeral number false) :: tokens) := by
  refine run_append ?_ ?_ (ofLexeme_run_number number) rfl ends lexes
  · rw [Nat.toString_eq_ofList_toDigits, String.toList_ofList]
    exact Nat.toDigits_ne_nil
  · intro char member
    exact isLater_of_isDigit (isDigit_of_mem_toString member)

/-! ## Character constants -/

/-- Whether some characters may stand in a character constant up to its end. -/
def staysQuoted : (isEscaped : Bool) → List Char → Bool
  | isEscaped, [] => !isEscaped
  | isEscaped, char :: rest =>
    char != '\n' &&
      if isEscaped then staysQuoted false rest
      else char != '\'' && staysQuoted (char == '\\') rest

theorem ofLine_quoted
    {isEscaped : Bool}
    {chars : List Char}
    (stays : staysQuoted isEscaped chars = true)
    (written rest : List Char) :
    Lexeme.ofLine (.quoted written isEscaped) (chars ++ '\'' :: rest) =
      .character (written ++ chars) :: Lexeme.ofLine .between rest := by
  induction chars generalizing isEscaped written with
  | nil =>
    cases isEscaped with
    | true => cases stays
    | false =>
      rw [List.append_nil]
      rfl
  | cons char more hypothesis =>
    rw [staysQuoted, Bool.and_eq_true] at stays
    have continues := stays.2
    rw [List.cons_append, Lexeme.ofLine]
    cases isEscaped with
    | true =>
      rw [if_pos rfl, hypothesis continues, List.append_assoc]
      rfl
    | false =>
      simp only [Bool.false_eq_true, if_false, Bool.and_eq_true,
        bne_iff_ne] at continues
      rw [if_neg Bool.false_ne_true, if_neg continues.1,
        hypothesis continues.2, List.append_assoc]
      rfl

theorem newline_not_mem_of_staysQuoted
    {isEscaped : Bool}
    {chars : List Char}
    (stays : staysQuoted isEscaped chars = true) :
    '\n' ∉ chars := by
  induction chars generalizing isEscaped with
  | nil => exact List.not_mem_nil
  | cons char more hypothesis =>
    rw [staysQuoted, Bool.and_eq_true, bne_iff_ne] at stays
    obtain ⟨notNewline, continues⟩ := stays
    rw [List.mem_cons, not_or]
    refine ⟨notNewline.symm, ?_⟩
    split at continues
    · exact hypothesis continues
    · rw [Bool.and_eq_true] at continues
      exact hypothesis continues.2

theorem Lexes.quoted
    {chars : List Char}
    (stays : staysQuoted false chars = true)
    {byte : UInt8}
    (denotes : Token.character chars = .character byte) :
    Lexes ('\'' :: chars ++ ['\'']) [.atom (.character byte)] := by
  refine ⟨?oneLine, rfl, [.character chars],
    by rw [List.map_singleton, Token.ofLexeme, denotes], ?gives⟩
  case oneLine =>
    have inside := newline_not_mem_of_staysQuoted stays
    simp [inside]
  case gives =>
    intro rest
    have opens : Lexeme.ofLine .between ('\'' :: (chars ++ '\'' :: rest)) =
        Lexeme.ofLine (.quoted [] false) (chars ++ '\'' :: rest) := rfl
    rw [List.cons_append, List.cons_append, List.append_assoc,
      List.singleton_append, opens, ofLine_quoted stays]
    rfl

/-! ## Header names -/

theorem tokenLines_of_not_mem
    {line : List Char}
    (oneLine : '\n' ∉ line) :
    tokenLines line = [Token.ofLine line] := by
  rw [tokenLines, List.splitOn_eq_singleton oneLine]
  rfl

/-- A line gives the tokens that it gives alone. -/
theorem lexesLine_of_tokenLines
    {line : List Char}
    {tokens : List Token}
    (oneLine : line.contains '\n' = false)
    (tokens_eq : tokenLines line = [tokens]) :
    LexesLine line tokens := by
  have absent : '\n' ∉ line := by simpa using oneLine
  rw [tokenLines_of_not_mem absent] at tokens_eq
  exact ⟨absent, (List.cons.inj tokens_eq).1⟩

/-! ## Closed texts -/

/-- Whether nothing that a text begins goes on after it: no quotes, no comment
and no run. -/
def isClosed (text : List Char) : Bool :=
  text.all (fun char =>
    char != '\n' && char != '"' && char != '\'' && char != '/') &&
    !text.getLast?.any Label.isLater

theorem ofLine_ne_nil_of_isLater
    {text : List Char}
    (later : text.head?.any Label.isLater = true) :
    Lexeme.ofLine .between text ≠ [] := by
  cases text with
  | nil => cases later
  | cons char rest =>
    have first : Label.isLater char = true := later
    rw [Lexeme.ofLine, if_pos first]
    split
    · exact Lexeme.extendRun_ne_nil _ _
    · exact List.cons_ne_nil _ _

/-- Closed characters give what they give alone. -/
theorem ofLine_append_of_isClosed
    {text : List Char}
    (closed : isClosed text = true)
    (rest : List Char) :
    Lexeme.ofLine .between (text ++ rest) =
      Lexeme.ofLine .between text ++ Lexeme.ofLine .between rest := by
  induction text with
  | nil => rfl
  | cons char more hypothesis =>
    rw [isClosed, List.all_cons, Bool.and_eq_true, Bool.and_eq_true] at closed
    obtain ⟨⟨plain, morePlain⟩, ends⟩ := closed
    simp only [Bool.and_eq_true, bne_iff_ne, ne_eq] at plain
    obtain ⟨⟨⟨_, notLiteral⟩, notQuote⟩, notComment⟩ := plain
    have moreClosed : isClosed more = true := by
      rw [isClosed, morePlain, Bool.true_and]
      cases more with
      | nil => rfl
      | cons second others => simpa using ends
    have later := hypothesis moreClosed
    rw [List.cons_append]
    by_cases continues : Label.isLater char = true
    · cases more with
      | nil => simp [continues] at ends
      | cons second others =>
        have follows : (second :: others ++ rest).head? =
            (second :: others).head? := rfl
        rw [Lexeme.ofLine, Lexeme.ofLine, if_pos continues, if_pos continues,
          follows, later]
        split
        · next second_continues =>
          exact Lexeme.extendRun_append char
            (ofLine_ne_nil_of_isLater second_continues) _
        · rfl
    · simp only [Lexeme.ofLine, continues, notLiteral, notQuote, notComment,
        false_and, if_false, Bool.false_eq_true, later]
      split <;> rfl

/-- Whether a text is closed and has nothing but ordinary tokens. -/
def isPlainText (text : List Char) : Bool :=
  isClosed text &&
    ((Lexeme.ofLine .between text).map Token.ofLexeme).all Token.isOrdinary

/-- A closed text gives the tokens that it gives alone. -/
theorem lexes_of_tokenLines
    {text : List Char}
    {tokens : List Token}
    (plain : isPlainText text = true)
    (tokens_eq : tokenLines text = [tokens]) :
    Lexes text tokens := by
  rw [isPlainText, Bool.and_eq_true] at plain
  obtain ⟨closed, ordinary⟩ := plain
  have oneLine : '\n' ∉ text := by
    rw [isClosed, Bool.and_eq_true] at closed
    intro member
    have plain := List.all_eq_true.mp closed.1 '\n' member
    simp at plain
  have lexes : Lexes text
      ((Lexeme.ofLine .between text).map Token.ofLexeme) :=
    ⟨oneLine, ordinary, _, rfl, ofLine_append_of_isClosed closed⟩
  rw [tokenLines_of_not_mem oneLine, lexes.line.gives] at tokens_eq
  rw [← (List.cons.inj tokens_eq).1]
  exact lexes

end Source
end WordSwitch
