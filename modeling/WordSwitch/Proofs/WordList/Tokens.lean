import Mathlib.Data.List.TakeWhile
import Mathlib.Tactic.ByContra
import WordSwitch.Bytes

/-!
# Tokens and cuts

How a byte string that is taken apart was put together.  A byte string is blank,
or it begins with a token between blank bytes, so what its tokens are can be
read off how it is written.  A cut at a delimiter is where the delimiter occurs
first.
-/

namespace WordSwitch
namespace Bytes

/-! ## Cuts -/

theorem cutAt_eq_none_iff
    {delimiter : UInt8}
    {bytes : Bytes} :
    cutAt delimiter bytes = none ↔ delimiter ∉ bytes := by
  simp [cutAt]

theorem cutAt_append
    {delimiter : UInt8}
    {first : Bytes}
    (absent : delimiter ∉ first)
    (rest : Bytes) :
    cutAt delimiter (first ++ delimiter :: rest) = some (first, rest) := by
  have others : ∀ byte ∈ first, (byte != delimiter) = true := by
    intro byte member
    rw [bne_iff_ne]
    rintro rfl
    exact absent member
  rw [cutAt, if_pos (by simp), List.takeWhile_append_of_pos others,
    List.dropWhile_append_of_pos others]
  simp

theorem cutAt_eq_some_iff
    {delimiter : UInt8}
    {bytes first rest : Bytes} :
    cutAt delimiter bytes = some (first, rest) ↔
      bytes = first ++ delimiter :: rest ∧ delimiter ∉ first := by
  constructor
  · intro cut
    have occurs : delimiter ∈ bytes := by
      by_contra absent
      rw [cutAt_eq_none_iff.mpr absent] at cut
      cases cut
    obtain ⟨before, after, rfl, absent⟩ := List.eq_append_cons_of_mem occurs
    rw [cutAt_append absent] at cut
    cases cut
    exact ⟨rfl, absent⟩
  · rintro ⟨rfl, absent⟩
    exact cutAt_append absent rest

theorem cutAt_append_of_not_mem_left
    {delimiter : UInt8}
    {before : Bytes}
    (absent : delimiter ∉ before)
    (bytes : Bytes) :
    cutAt delimiter (before ++ bytes) =
      (cutAt delimiter bytes).map fun cut => (before ++ cut.1, cut.2) := by
  cases cut : cutAt delimiter bytes with
  | none =>
    rw [cutAt_eq_none_iff] at cut
    exact cutAt_eq_none_iff.mpr (by simp [absent, cut])
  | some pieces =>
    obtain ⟨rfl, free⟩ := cutAt_eq_some_iff.mp cut
    exact cutAt_eq_some_iff.mpr
      ⟨(List.append_assoc ..).symm, by simp [absent, free]⟩

theorem cutAt_append_of_not_mem_right
    {delimiter : UInt8}
    {after : Bytes}
    (absent : delimiter ∉ after)
    (bytes : Bytes) :
    cutAt delimiter (bytes ++ after) =
      (cutAt delimiter bytes).map fun cut => (cut.1, cut.2 ++ after) := by
  cases cut : cutAt delimiter bytes with
  | none =>
    rw [cutAt_eq_none_iff] at cut
    exact cutAt_eq_none_iff.mpr (by simp [absent, cut])
  | some pieces =>
    obtain ⟨rfl, free⟩ := cutAt_eq_some_iff.mp cut
    exact cutAt_eq_some_iff.mpr ⟨List.append_assoc .., free⟩

/-! ## Blank bytes and tokens -/

/-- Every byte is ASCII whitespace. -/
def IsBlank (bytes : Bytes) : Prop :=
  ∀ byte ∈ bytes, Byte.isSpace byte = true

instance (bytes : Bytes) : Decidable (IsBlank bytes) :=
  inferInstanceAs (Decidable (∀ byte ∈ bytes, Byte.isSpace byte = true))

/-- A non-empty run of bytes that are not ASCII whitespace. -/
structure IsToken (bytes : Bytes) : Prop where
  nonempty : bytes ≠ []
  solid : ∀ byte ∈ bytes, Byte.isSpace byte = false

/-- Some bytes are a single token with nothing but ASCII whitespace around
it. -/
def HoldsToken (bytes token : Bytes) : Prop :=
  ∃ before after : Bytes, bytes = before ++ token ++ after ∧
    IsBlank before ∧ IsToken token ∧ IsBlank after

theorem HoldsToken.isToken
    {bytes token : Bytes}
    (holds : bytes.HoldsToken token) :
    token.IsToken := by
  obtain ⟨_, _, _, _, isToken, _⟩ := holds
  exact isToken

theorem HoldsToken.mem
    {bytes token : Bytes}
    (holds : bytes.HoldsToken token)
    {byte : UInt8}
    (member : byte ∈ token) :
    byte ∈ bytes := by
  obtain ⟨before, after, rfl, _⟩ := holds
  exact List.mem_append_left after (List.mem_append_right before member)

/-- A byte that is not in the token and not ASCII whitespace is not there. -/
theorem HoldsToken.not_mem
    {bytes token : Bytes}
    (holds : bytes.HoldsToken token)
    {byte : UInt8}
    (solid : Byte.isSpace byte = false)
    (absent : byte ∉ token) :
    byte ∉ bytes := by
  obtain ⟨before, after, rfl, blankBefore, _, blankAfter⟩ := holds
  rw [List.mem_append, List.mem_append]
  rintro ((inBefore | inToken) | inAfter)
  · exact Bool.false_ne_true (solid.symm.trans (blankBefore byte inBefore))
  · exact absent inToken
  · exact Bool.false_ne_true (solid.symm.trans (blankAfter byte inAfter))

theorem IsBlank.not_mem
    {bytes : Bytes}
    (blank : bytes.IsBlank)
    {byte : UInt8}
    (solid : Byte.isSpace byte = false) :
    byte ∉ bytes := by
  intro member
  exact Bool.false_ne_true (solid.symm.trans (blank byte member))

theorem HoldsToken.not_isBlank
    {bytes token : Bytes}
    (holds : bytes.HoldsToken token) :
    ¬ bytes.IsBlank := by
  obtain ⟨before, after, rfl, _, isToken, _⟩ := holds
  obtain ⟨byte, rest, rfl⟩ := List.exists_cons_of_ne_nil isToken.nonempty
  intro blank
  exact blank.not_mem (isToken.solid byte List.mem_cons_self) (by simp)

/-- Bytes that are not all ASCII whitespace begin, after ASCII whitespace, with
a token that ends at ASCII whitespace or with them. -/
theorem exists_token_of_not_isBlank
    {bytes : Bytes}
    (notBlank : ¬ bytes.IsBlank) :
    ∃ before token after : Bytes, bytes = before ++ (token ++ after) ∧
      IsBlank before ∧ IsToken token ∧ after.head?.all Byte.isSpace = true := by
  have blankBefore : IsBlank (bytes.takeWhile Byte.isSpace) :=
    fun byte member => List.mem_takeWhile_imp member
  cases remaining : bytes.dropWhile Byte.isSpace with
  | nil =>
    exact absurd (List.dropWhile_eq_nil_iff.mp remaining) notBlank
  | cons first rest =>
    have solid : Byte.isSpace first = false := by
      simpa [remaining] using List.head?_dropWhile_not Byte.isSpace bytes
    refine ⟨bytes.takeWhile Byte.isSpace,
      (first :: rest).takeWhile (! Byte.isSpace ·),
      (first :: rest).dropWhile (! Byte.isSpace ·), ?_, blankBefore, ⟨?_, ?_⟩,
      ?_⟩
    · rw [List.takeWhile_append_dropWhile, ← remaining,
        List.takeWhile_append_dropWhile]
    · simp [solid]
    · intro byte member
      simpa using List.mem_takeWhile_imp member
    · have stops :=
        List.head?_dropWhile_not (! Byte.isSpace ·) (first :: rest)
      cases next : ((first :: rest).dropWhile (! Byte.isSpace ·)).head? with
      | none => rfl
      | some byte => simpa [next] using stops

/-! ## The tokens of a byte string -/

/-- A run without separators goes to the first of the pieces behind it. -/
theorem pieces_append_of_solid
    {isSeparator : UInt8 → Bool}
    {run : Bytes}
    (solid : ∀ byte ∈ run, isSeparator byte = false)
    {rest first : Bytes}
    {others : List Bytes}
    (restPieces : pieces isSeparator rest = first :: others) :
    pieces isSeparator (run ++ rest) = (run ++ first) :: others := by
  induction run with
  | nil => exact restPieces
  | cons byte more hypothesis =>
    rw [List.cons_append, pieces_cons,
      solid byte List.mem_cons_self, hypothesis fun other member =>
        solid other (List.mem_cons_of_mem byte member)]
    rfl

/-- There is at least one piece. -/
theorem exists_pieces_eq_cons (isSeparator : UInt8 → Bool) (bytes : Bytes) :
    ∃ first others, pieces isSeparator bytes = first :: others := by
  cases bytes with
  | nil => exact ⟨[], [], rfl⟩
  | cons byte rest =>
    rw [pieces_cons]
    split
    · exact ⟨_, _, rfl⟩
    · cases pieces isSeparator rest <;> exact ⟨_, _, rfl⟩

/-- A separator ends the last of the pieces in front of it. -/
theorem pieces_append_separator
    {isSeparator : UInt8 → Bool}
    {separator : UInt8}
    (separates : isSeparator separator = true)
    (before after : Bytes) :
    pieces isSeparator (before ++ separator :: after) =
      pieces isSeparator before ++ pieces isSeparator after := by
  induction before with
  | nil => exact if_pos separates
  | cons byte rest hypothesis =>
    rw [List.cons_append, pieces_cons, pieces_cons, hypothesis]
    split
    · rfl
    · obtain ⟨first, others, pieces_eq⟩ :=
        exists_pieces_eq_cons isSeparator rest
      rw [pieces_eq]
      rfl

theorem tokens_append_of_blank
    {before : Bytes}
    (blank : before.IsBlank)
    (rest : Bytes) :
    tokens (before ++ rest) = tokens rest := by
  induction before with
  | nil => rfl
  | cons byte more hypothesis =>
    obtain ⟨space, blank⟩ := List.forall_mem_cons.mp blank
    rw [List.cons_append, tokens, pieces_cons, if_pos space,
      List.filter_cons_of_neg (by simp)]
    exact hypothesis blank

/-- A token is the first one if ASCII whitespace or nothing comes after it. -/
theorem tokens_append_token
    {token rest : Bytes}
    (isToken : token.IsToken)
    (ends : rest.head?.all Byte.isSpace = true) :
    tokens (token ++ rest) = token :: tokens rest := by
  obtain ⟨others, restPieces⟩ :
      ∃ others, pieces Byte.isSpace rest = [] :: others := by
    cases rest with
    | nil => exact ⟨[], rfl⟩
    | cons space more =>
      exact ⟨pieces Byte.isSpace more, if_pos ends⟩
  rw [tokens, tokens, restPieces,
    pieces_append_of_solid isToken.solid restPieces, List.append_nil,
    List.filter_cons_of_pos (by simpa using isToken.nonempty),
    List.filter_cons_of_neg (by simp)]

theorem tokens_eq_nil_iff {bytes : Bytes} :
    tokens bytes = [] ↔ bytes.IsBlank := by
  constructor
  · intro empty
    by_contra notBlank
    obtain ⟨before, token, after, rfl, blank, isToken, ends⟩ :=
      exists_token_of_not_isBlank notBlank
    rw [tokens_append_of_blank blank, tokens_append_token isToken ends] at empty
    cases empty
  · intro blank
    have all := tokens_append_of_blank blank []
    rwa [List.append_nil] at all

theorem tokens_append_blank
    (bytes : Bytes)
    {after : Bytes}
    (blank : after.IsBlank) :
    tokens (bytes ++ after) = tokens bytes := by
  cases after with
  | nil => rw [List.append_nil]
  | cons space more =>
    obtain ⟨separates, blank⟩ := List.forall_mem_cons.mp blank
    rw [tokens, pieces_append_separator separates, List.filter_append,
      ← tokens, ← tokens, tokens_eq_nil_iff.mpr blank, List.append_nil]

theorem tokens_eq_singleton_iff {bytes token : Bytes} :
    tokens bytes = [token] ↔ bytes.HoldsToken token := by
  constructor
  · intro single
    have notBlank : ¬ bytes.IsBlank := by
      intro blank
      rw [tokens_eq_nil_iff.mpr blank] at single
      cases single
    obtain ⟨before, first, after, rfl, blank, isToken, ends⟩ :=
      exists_token_of_not_isBlank notBlank
    rw [tokens_append_of_blank blank, tokens_append_token isToken ends,
      List.cons.injEq, tokens_eq_nil_iff] at single
    obtain ⟨rfl, blankAfter⟩ := single
    exact ⟨before, after, (List.append_assoc ..).symm, blank, isToken,
      blankAfter⟩
  · rintro ⟨before, after, rfl, blankBefore, isToken, blankAfter⟩
    have ends : after.head?.all Byte.isSpace = true := by
      cases after with
      | nil => rfl
      | cons space more => exact blankAfter space List.mem_cons_self
    rw [List.append_assoc, tokens_append_of_blank blankBefore,
      tokens_append_token isToken ends, tokens_eq_nil_iff.mpr blankAfter]

end Bytes
end WordSwitch
