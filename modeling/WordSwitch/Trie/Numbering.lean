import WordSwitch.Trie.Branches

/-!
# Numbering nodes

The nodes of finished branches are numbered in one of two orders: each node
before the nodes below it, or after them.
-/

namespace WordSwitch
namespace Branches

variable {ι : Type}

/-- Number every node before the nodes below it, from `next`. -/
def numberDownward : Branches ι → (next : Nat) → Branches Nat
  | nil, _ => nil
  | cons chunk _ terminal below rest, next =>
    cons chunk next terminal
      (below.numberDownward (next + 1))
      (rest.numberDownward (next + 1 + below.size))

/-- Number every node after the nodes below it, from `next`. -/
def numberUpward : Branches ι → (next : Nat) → Branches Nat
  | nil, _ => nil
  | cons chunk _ terminal below rest, next =>
    cons chunk (next + below.size) terminal
      (below.numberUpward next)
      (rest.numberUpward (next + below.size + 1))

@[simp] theorem size_numberDownward
    (branches : Branches ι)
    (next : Nat) :
    (branches.numberDownward next).size = branches.size := by
  induction branches generalizing next with
  | nil => rfl
  | cons chunk tag terminal below rest below_size rest_size =>
    simp [numberDownward, below_size, rest_size]

@[simp] theorem size_numberUpward
    (branches : Branches ι)
    (next : Nat) :
    (branches.numberUpward next).size = branches.size := by
  induction branches generalizing next with
  | nil => rfl
  | cons chunk tag terminal below rest below_size rest_size =>
    simp [numberUpward, below_size, rest_size]

@[simp] theorem words_numberDownward
    (branches : Branches ι)
    (next : Nat) :
    (branches.numberDownward next).words = branches.words := by
  induction branches generalizing next with
  | nil => rfl
  | cons chunk tag terminal below rest below_words rest_words =>
    simp [numberDownward, below_words, rest_words]

@[simp] theorem words_numberUpward
    (branches : Branches ι)
    (next : Nat) :
    (branches.numberUpward next).words = branches.words := by
  induction branches generalizing next with
  | nil => rfl
  | cons chunk tag terminal below rest below_words rest_words =>
    simp [numberUpward, below_words, rest_words]

end Branches
end WordSwitch
