import WordSwitch.Outline
import WordSwitch.Proofs.Outline.Decoding
import WordSwitch.Proofs.Trie.Shape

/-!
# Words spelled by rows

The rows of an outline spell the words of the trie that they draw.  The chunks
on the way to a row are known from the rows above it: those of as many rows as
nodes stand above the node, which are the ones that lead there.
-/

namespace WordSwitch

/-- What a row of an outline says. -/
def OutlineRow.listed (row : OutlineRow) : Listing.Row :=
  ⟨row.isLast.length, row.chunk, row.terminal⟩

namespace Branches

theorem map_extend_map_extend
    (before chunk : Bytes)
    (spellings : List Spelling) :
    (spellings.map (extend chunk)).map (extend before) =
      spellings.map (extend (before ++ chunk)) := by
  simp [extend]

theorem map_extend_nil (spellings : List Spelling) :
    spellings.map (extend []) = spellings :=
  List.map_id spellings

/-- What some rows say spells the words of their branches, in front of which
stand the chunks of the nodes above.  The rows leave those chunks known. -/
theorem words_outlineRows
    {ι : Type}
    (branches : Branches ι)
    (above : List Bool)
    (path : List Bytes)
    (reaches : above.length ≤ path.length) :
    ∃ left : List Bytes,
      left.take above.length = path.take above.length ∧
      ∀ others, Listing.words path
          ((branches.outlineRows above).map OutlineRow.listed ++ others) =
        branches.words.map (extend (path.take above.length).flatten) ++
          Listing.words left others := by
  induction branches generalizing above path with
  | nil => exact ⟨path, rfl, fun _ => rfl⟩
  | cons chunk tag terminal below rest ofBelow ofRest =>
    obtain ⟨here, here_eq⟩ : ∃ here, here = above ++ [rest.isNil] := ⟨_, rfl⟩
    have depth : here.length = above.length + 1 := by simp [here_eq]
    obtain ⟨node, node_eq⟩ :
        ∃ node, node = path.take above.length ++ [chunk] := ⟨_, rfl⟩
    have node_length : node.length = above.length + 1 := by
      simp [node_eq, reaches]
    obtain ⟨afterBelow, below_known, below_words⟩ :=
      ofBelow here node (by omega)
    -- The rows below a node keep the chunk of the node, hence all above it.
    have known : afterBelow.take above.length = path.take above.length := by
      have kept := congrArg (List.take above.length) below_known
      rw [List.take_take, List.take_take, depth,
        Nat.min_eq_left (Nat.le_succ _), node_eq] at kept
      rw [kept, List.take_append_of_le_length (by simp [reaches]),
        List.take_take, Nat.min_self]
    have still : above.length ≤ afterBelow.length := by
      have lengths := congrArg List.length known
      rw [List.length_take, List.length_take] at lengths
      omega
    obtain ⟨left, rest_known, rest_words⟩ := ofRest above afterBelow still
    refine ⟨left, rest_known.trans known, ?_⟩
    intro others
    have spelled : node.flatten = (path.take above.length).flatten ++ chunk := by
      simp [node_eq]
    have rows_eq : (cons chunk tag terminal below rest).outlineRows above =
        ⟨here, chunk, terminal⟩ ::
          (below.outlineRows here ++ rest.outlineRows above) := by
      rw [here_eq]
      rfl
    rw [rows_eq, List.map_cons, List.cons_append, List.map_append,
      List.append_assoc, OutlineRow.listed, Listing.words]
    simp only [depth, Nat.add_sub_cancel, ← node_eq]
    rw [below_words, rest_words, known, List.take_of_length_le (by omega),
      spelled, words_cons, List.map_append, List.map_append,
      map_extend_ownSpelling, map_extend_map_extend, List.append_assoc,
      List.append_assoc]

/-- The enumerator on a row is that of a word. -/
theorem exists_word_of_mem_outlineRows
    {ι : Type}
    {branches : Branches ι}
    {above : List Bool}
    {row : OutlineRow}
    (drawn : row ∈ branches.outlineRows above)
    {member : Enumerator}
    (carried : member ∈ row.terminal) :
    ∃ word, (word, member) ∈ branches.words := by
  induction branches generalizing above with
  | nil => cases drawn
  | cons chunk tag terminal below rest ofBelow ofRest =>
    rw [outlineRows, List.mem_append, List.mem_cons] at drawn
    simp only [words_cons, List.mem_append]
    rcases drawn with (rfl | inBelow) | inRest
    · cases carried
      exact ⟨chunk, .inl (.inl List.mem_cons_self)⟩
    · obtain ⟨word, present⟩ := ofBelow inBelow
      exact ⟨chunk ++ word,
        .inl (.inr (List.mem_map.mpr ⟨_, present, rfl⟩))⟩
    · obtain ⟨word, present⟩ := ofRest inRest
      exact ⟨word, .inr present⟩

end Branches

namespace Trie

/-- The rows for a trie: the root if the empty word stands for something, and
the nodes below it. -/
def listedRows (trie : Trie) : List Listing.Row :=
  (trie.terminal.map fun enumerator => ⟨0, [], some enumerator⟩).toList ++
    (trie.branches.outlineRows []).map OutlineRow.listed

theorem words_listedRows (trie : Trie) :
    Listing.words [] trie.listedRows = trie.words := by
  have below : ∀ path : List Bytes, Listing.words path
      ((trie.branches.outlineRows []).map OutlineRow.listed) =
        trie.branches.words := by
    intro path
    obtain ⟨left, _, words_eq⟩ :=
      trie.branches.words_outlineRows [] path (Nat.zero_le _)
    have spelled := words_eq []
    rw [List.append_nil, List.length_nil, List.take_zero, List.flatten_nil,
      Branches.map_extend_nil, Listing.words, List.append_nil] at spelled
    exact spelled
  unfold listedRows Trie.words
  cases trie.terminal with
  | none => exact below []
  | some enumerator =>
    exact congrArg (([], enumerator) :: ·) (below [[]])

end Trie

end WordSwitch
