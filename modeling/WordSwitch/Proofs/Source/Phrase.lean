import WordSwitch.Proofs.Source.Lexeme

/-!
# Phrases

Tokens grouped by their brackets.  Grouping works from the last token to the
first: a closing bracket opens a group, and the opening bracket closes it.
-/

namespace WordSwitch
namespace Source

/-- Atoms and bracketed phrases, in order. -/
inductive Phrase where
  | nil
  | atom (atom : Atom) (next : Phrase)
  | group (bracket : Bracket) (inside next : Phrase)
deriving DecidableEq, Repr

namespace Phrase

/-- One phrase after another. -/
def append : Phrase → Phrase → Phrase
  | nil, others => others
  | atom first next, others => atom first (next.append others)
  | group bracket inside next, others =>
    group bracket inside (next.append others)

/-- The tokens of a phrase. -/
def tokens : Phrase → List Token
  | nil => []
  | atom first next => .atom first :: next.tokens
  | group bracket inside next =>
    .opening bracket :: inside.tokens ++ .closing bracket :: next.tokens

/-- What is left of a phrase that is being grouped: the phrases after the
brackets that are closed but not opened yet, and what stands in front of
them. -/
structure Gathered where
  outer : List (Bracket × Phrase)
  inner : Phrase
deriving DecidableEq, Repr

/-- Put a token in front. -/
def Gathered.add? (gathered : Gathered) : Token → Option Gathered
  | .atom first => some { gathered with inner := atom first gathered.inner }
  | .closing bracket =>
    some ⟨(bracket, gathered.inner) :: gathered.outer, nil⟩
  | .opening bracket =>
    match gathered.outer with
    | (expected, after) :: outer =>
      if bracket = expected then
        some ⟨outer, group bracket gathered.inner after⟩
      else none
    | [] => none

/-- Group some tokens. -/
def gather : List Token → Option Gathered
  | [] => some ⟨[], nil⟩
  | token :: rest => (gather rest).bind (·.add? token)

/-- The phrase that some tokens form; `none` if brackets do not match. -/
def ofTokens? (tokens : List Token) : Option Phrase :=
  match gather tokens with
  | some ⟨[], phrase⟩ => some phrase
  | _ => none

@[simp] theorem append_nil (phrase : Phrase) : phrase.append nil = phrase := by
  induction phrase with
  | nil => rfl
  | atom first next hypothesis => rw [append, hypothesis]
  | group bracket inside next _ hypothesis => rw [append, hypothesis]

theorem append_assoc (first second third : Phrase) :
    (first.append second).append third =
      first.append (second.append third) := by
  induction first with
  | nil => rfl
  | atom head next hypothesis => simp only [append, hypothesis]
  | group bracket inside next _ hypothesis => simp only [append, hypothesis]

@[simp] theorem tokens_append (first second : Phrase) :
    (first.append second).tokens = first.tokens ++ second.tokens := by
  induction first with
  | nil => rfl
  | atom head next hypothesis => simp [append, tokens, hypothesis]
  | group bracket inside next _ hypothesis => simp [append, tokens, hypothesis]

/-- Grouping the tokens of a phrase puts the phrase in front. -/
theorem gather_tokens_append (phrase : Phrase) (rest : List Token) :
    gather (phrase.tokens ++ rest) = (gather rest).map fun gathered =>
      { gathered with inner := phrase.append gathered.inner } := by
  induction phrase generalizing rest with
  | nil => simp [tokens, append]
  | atom first next hypothesis =>
    rw [tokens, List.cons_append, gather, hypothesis]
    cases gather rest <;> rfl
  | group bracket inside next inside_gather next_gather =>
    rw [tokens, List.cons_append, List.cons_append, List.append_assoc,
      List.cons_append, gather, inside_gather, gather, next_gather]
    cases gather rest with
    | none => rfl
    | some gathered => simp [Gathered.add?, append]

/-- The tokens of a phrase form that phrase. -/
@[simp] theorem ofTokens?_tokens (phrase : Phrase) :
    ofTokens? phrase.tokens = some phrase := by
  have gathered := gather_tokens_append phrase []
  rw [List.append_nil, gather] at gathered
  rw [ofTokens?, gathered]
  simp

end Phrase

end Source
end WordSwitch
