import WordSwitch.Lexicon.Basic

/-!
# Words that differ only in case

When case is ignored, two words that differ only in case cannot be told
apart.  Each entry that has an earlier entry equal to it without regard to
case collides with the first such entry.
-/

namespace WordSwitch
namespace Lexicon

/-- The collisions among some entries, given the first entry seen for each
lowercased word. -/
def collisionsAfter :
    (seen : List (Bytes × Entry)) → List Entry → List (Entry × Entry)
  | _, [] => []
  | seen, entry :: rest =>
    let key := Bytes.lower entry.word
    match findIn? key seen with
    | some first => (first, entry) :: collisionsAfter seen rest
    | none => collisionsAfter ((key, entry) :: seen) rest

/-- The pairs of entries that differ only in case: each entry that comes too
late, after the first of its kind. -/
def collisions (lexicon : Lexicon) : List (Entry × Entry) :=
  collisionsAfter [] lexicon.entries

end Lexicon
end WordSwitch
