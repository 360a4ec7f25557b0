import WordSwitch.Trie.Basic
import WordSwitch.Trie.Numbering

/-!
# Words of one length

The part of a trie that holds the words of one length.  Shorter words on the
way lose their terminals, longer words are cut off, and nodes that lead to no
word are left out.  What is left is numbered afresh, upward.
-/

namespace WordSwitch

namespace Branches

variable {ι : Type}

/-- The branches that lead to words of exactly `length` bytes. -/
def ofLength : Branches ι → (length : Nat) → Branches Unit
  | nil, _ => nil
  | cons chunk _ terminal below rest, length =>
    if chunk.length = length then
      match terminal with
      | some enumerator =>
        cons chunk () (some enumerator) nil (rest.ofLength length)
      | none => rest.ofLength length
    else if chunk.length < length then
      match below.ofLength (length - chunk.length) with
      | nil => rest.ofLength length
      | kept => cons chunk () none kept (rest.ofLength length)
    else
      rest.ofLength length

end Branches

namespace Trie

/-- The trie of the words of one length; `none` if there are none. -/
def ofLength? (trie : Trie) (length : Nat) : Option Trie :=
  if length = 0 then
    trie.terminal.map fun enumerator =>
      ⟨trie.maxWidth, some enumerator, .nil⟩
  else
    match trie.branches.ofLength length with
    | .nil => none
    | kept => some ⟨trie.maxWidth, none, kept.numberUpward 1⟩

end Trie

end WordSwitch
