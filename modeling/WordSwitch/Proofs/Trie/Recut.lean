import WordSwitch.Proofs.Ascending
import WordSwitch.Proofs.Trie.Advance

/-!
# What recutting keeps and what it makes

Recutting keeps the words of branches that spell words of one length, and with
them that words end at the leaves and nowhere else.  What it makes is that the
chunks that leave a node are aligned, at every node.
-/

namespace WordSwitch

namespace Branches

variable {ι : Type}

/-- One edge for each of some chunks. -/
def fan
    (terminal : Bytes → Option Enumerator)
    (below : Bytes → Branches Unit)
    (chunks : List Bytes) :
    Branches Unit :=
  chunks.foldr (fun chunk rest => cons chunk () (terminal chunk) (below chunk)
    rest) nil

section Fan

variable
  {terminal : Bytes → Option Enumerator}
  {below : Bytes → Branches Unit}
  {chunks : List Bytes}

theorem fan_cons (chunk : Bytes) :
    fan terminal below (chunk :: chunks) =
      cons chunk () (terminal chunk) (below chunk)
        (fan terminal below chunks) :=
  rfl

theorem fan_congr
    {otherTerminal : Bytes → Option Enumerator}
    {otherBelow : Bytes → Branches Unit}
    (same : ∀ chunk ∈ chunks, terminal chunk = otherTerminal chunk ∧
      below chunk = otherBelow chunk) :
    fan terminal below chunks = fan otherTerminal otherBelow chunks := by
  induction chunks with
  | nil => rfl
  | cons chunk rest hypothesis =>
    obtain ⟨⟨terminal_eq, below_eq⟩, later⟩ := List.forall_mem_cons.mp same
    rw [fan_cons, fan_cons, terminal_eq, below_eq, hypothesis later]

@[simp] theorem chunks_fan : (fan terminal below chunks).chunks = chunks := by
  induction chunks with
  | nil => rfl
  | cons chunk rest hypothesis => exact congrArg (chunk :: ·) hypothesis

theorem mem_words_fan {word : Bytes} {member : Enumerator} :
    (word, member) ∈ (fan terminal below chunks).words ↔
      ∃ chunk ∈ chunks,
        (word = chunk ∧ terminal chunk = some member) ∨
        ∃ tail, word = chunk ++ tail ∧ (tail, member) ∈ (below chunk).words := by
  induction chunks with
  | nil => simp [fan]
  | cons chunk rest hypothesis =>
    rw [fan_cons, mem_words_cons, hypothesis]
    simp [or_assoc]

theorem everyChunk_fan {property : Bytes → Prop} :
    (fan terminal below chunks).EveryChunk property ↔
      ∀ chunk ∈ chunks, property chunk ∧
        (below chunk).EveryChunk property := by
  induction chunks with
  | nil => simp [fan, EveryChunk]
  | cons chunk rest hypothesis =>
    rw [fan_cons, EveryChunk, hypothesis]
    simp [and_assoc]

theorem everyNode_fan {property : List Bytes → Prop} :
    (fan terminal below chunks).EveryNode property ↔
      ∀ chunk ∈ chunks, property (below chunk).chunks ∧
        (below chunk).EveryNode property := by
  induction chunks with
  | nil => simp [fan, EveryNode]
  | cons chunk rest hypothesis =>
    rw [fan_cons, EveryNode, hypothesis]
    simp [and_assoc]

theorem wordsAtLeaves_fan :
    (fan terminal below chunks).WordsAtLeaves ↔
      ∀ chunk ∈ chunks, (below chunk).isNil = (terminal chunk).isSome ∧
        (below chunk).WordsAtLeaves := by
  induction chunks with
  | nil => simp [fan, WordsAtLeaves]
  | cons chunk rest hypothesis =>
    rw [fan_cons, WordsAtLeaves, hypothesis]
    simp [and_assoc]

end Fan

/-! ## One level -/

/-- The first bytes of the edges, cut at their common width. -/
def starts (cutting : Cutting) (branches : Branches ι) : List Bytes :=
  ascending (branches.chunks.map (·.take (branches.commonWidth cutting)))

/-- What is left of the edges that begin with some bytes. -/
def group
    (cutting : Cutting)
    (branches : Branches ι)
    (start : Bytes) :
    Branches ι :=
  (branches.startingWith (branches.commonWidth cutting) start).advance
    (branches.commonWidth cutting)

/-- The terminal on which the edges that begin with some bytes land. -/
def groupTerminal
    (cutting : Cutting)
    (branches : Branches ι)
    (start : Bytes) :
    Option Enumerator :=
  (branches.startingWith (branches.commonWidth cutting) start).landing
    (branches.commonWidth cutting)

theorem recutWithin_succ
    (cutting : Cutting)
    (bound : Nat)
    (branches : Branches ι) :
    branches.recutWithin cutting (bound + 1) =
      fan (branches.groupTerminal cutting)
        (fun start => (branches.group cutting start).recutWithin cutting bound)
        (branches.starts cutting) :=
  rfl

section

variable
  {cutting : Cutting}
  {length : Nat}
  {branches : Branches ι}
  {start : Bytes}

theorem mem_starts :
    start ∈ branches.starts cutting ↔
      ∃ chunk ∈ branches.chunks,
        chunk.take (branches.commonWidth cutting) = start := by
  rw [starts, mem_ascending, List.mem_map]

theorem length_start
    (one : branches.OfOneLength length)
    (listed : start ∈ branches.starts cutting) :
    start.length = branches.commonWidth cutting := by
  obtain ⟨chunk, member, rfl⟩ := mem_starts.mp listed
  have within := commonWidth_le_length cutting one.nonempty member
  rw [List.length_take]
  omega

theorem OfOneLength.start_of_group
    (one : branches.OfOneLength length)
    (listed : start ∈ branches.starts cutting) :
    (branches.group cutting start).OfOneLength
      (length - branches.commonWidth cutting) :=
  one.group (fun _ member => commonWidth_le_length cutting one.nonempty member)
    (length_start one listed)

theorem OfOneLength.mem_words_start
    (one : branches.OfOneLength length)
    (listed : start ∈ branches.starts cutting)
    {word : Bytes}
    {member : Enumerator} :
    (word, member) ∈ (branches.group cutting start).words ↔
      word ≠ [] ∧ (start ++ word, member) ∈ branches.words :=
  mem_words_group one.nonempty one.leaves
    (fun _ member => commonWidth_le_length cutting one.nonempty member)
    (length_start one listed)

/-- The terminal of a group is what its bytes stand for. -/
theorem OfOneLength.groupTerminal_eq_some_iff
    (one : branches.OfOneLength length)
    (listed : start ∈ branches.starts cutting)
    {member : Enumerator} :
    branches.groupTerminal cutting start = some member ↔
      (start, member) ∈ branches.words := by
  have wide : ∀ chunk ∈ branches.chunks,
      branches.commonWidth cutting ≤ chunk.length :=
    fun _ => commonWidth_le_length cutting one.nonempty
  constructor
  · exact mem_words_of_landing wide
  · intro present
    have lands := isSome_landing_of_mem_words one.nonempty wide
      (length_start one listed) present
    obtain ⟨other, found⟩ := Option.isSome_iff_exists.mp lands
    rw [one.functional start member other present
      (mem_words_of_landing wide found)]
    exact found

theorem OfOneLength.levelBound_start
    (one : branches.OfOneLength length)
    (positive : 0 < cutting.maxWidth)
    {bound : Nat}
    (enough : branches.levelBound ≤ bound + 1)
    (start : Bytes) :
    (branches.group cutting start).levelBound ≤ bound := by
  have width_pos := (readableWithin_commonWidth positive branches).pos
  have wide : ∀ chunk ∈ branches.chunks,
      branches.commonWidth cutting ≤ chunk.length :=
    fun _ => commonWidth_le_length cutting one.nonempty
  have lowered := levelBound_group width_pos wide start
  unfold Branches.group
  omega

/-- Every word begins with the bytes of some group. -/
theorem exists_start
    (cutting : Cutting)
    {word : Bytes}
    {member : Enumerator}
    (present : (word, member) ∈ branches.words) :
    ∃ start ∈ branches.starts cutting, start <+: word := by
  obtain ⟨chunk, listed, begins⟩ := exists_chunk_prefix present
  exact ⟨_, mem_starts.mpr ⟨chunk, listed, rfl⟩,
    (List.take_prefix _ chunk).trans begins⟩

/-- A group is used up exactly if its bytes are a word by themselves. -/
theorem OfOneLength.isNil_group
    (one : branches.OfOneLength length)
    (listed : start ∈ branches.starts cutting) :
    (branches.group cutting start).isNil =
      (branches.groupTerminal cutting start).isSome := by
  cases terminal_eq : branches.groupTerminal cutting start with
  | some member =>
    rw [one.groupTerminal_eq_some_iff listed] at terminal_eq
    rw [Option.isSome_some, isNil_eq_true_iff]
    by_contra edges
    obtain ⟨word, other, inside⟩ :=
      (one.start_of_group listed).leaves.exists_word edges
    obtain ⟨longer, present⟩ := (one.mem_words_start listed).mp inside
    have start_length := one.length_eq start member terminal_eq
    have word_length := one.length_eq _ other present
    have positive := List.length_pos_iff.mpr longer
    rw [List.length_append] at word_length
    omega
  | none =>
    rw [Option.isSome_none, Bool.eq_false_iff, Ne, isNil_eq_true_iff]
    intro ends
    obtain ⟨chunk, member, taken⟩ := mem_starts.mp listed
    obtain ⟨tail, enumerator, present⟩ :=
      one.leaves.exists_word_of_mem_chunks member
    have split_eq : chunk ++ tail = start ++
        (chunk.drop (branches.commonWidth cutting) ++ tail) := by
      rw [← List.append_assoc, ← taken, List.take_append_drop]
    rw [split_eq] at present
    cases rest_eq : chunk.drop (branches.commonWidth cutting) ++ tail with
    | nil =>
      rw [rest_eq, List.append_nil] at present
      rw [← one.groupTerminal_eq_some_iff listed, terminal_eq] at present
      cases present
    | cons byte word =>
      rw [rest_eq] at present
      have inside := (one.mem_words_start listed).mpr ⟨by simp, present⟩
      rw [ends] at inside
      cases inside

/-- The first bytes of the edges of a node are aligned. -/
theorem aligned_starts
    (positive : 0 < cutting.maxWidth)
    (one : branches.OfOneLength length)
    (noUpper : cutting.ignoreCase = true → branches.EveryChunk Bytes.NoUpper) :
    Chunk.Aligned cutting.ignoreCase cutting.maxWidth
      (branches.starts cutting) := by
  refine ⟨nodup_ascending _, ⟨_, readableWithin_commonWidth positive branches,
    fun _ => length_start one⟩, ?_, ?_⟩
  · intro ignored start listed byte inStart
    obtain ⟨chunk, member, rfl⟩ := mem_starts.mp listed
    exact (noUpper ignored).of_mem_chunks member byte
      (List.mem_of_mem_take inStart)
  · intro ignored start listed wide
    rw [length_start one listed] at wide
    obtain ⟨chunk, member, rfl⟩ := mem_starts.mp listed
    have safe := commonWidth_le cutting member
    rw [ignored] at safe
    exact Chunk.allFoldable_take_of_le_safeWidth wide safe

theorem noUpper_group
    (noUpper : branches.EveryChunk Bytes.NoUpper) :
    (branches.group cutting start).EveryChunk Bytes.NoUpper := by
  refine EveryChunk.group noUpper ?_ ?_
  · intro chunk holds _ byte inside
    exact holds byte (List.mem_of_mem_drop inside)
  · intro chunk other holds otherHolds byte inside
    rcases List.mem_append.mp inside with inChunk | inOther
    · exact holds byte (List.mem_of_mem_drop inChunk)
    · exact otherHolds byte inOther

end

/-! ## All levels -/

/-- Branches of which all nodes are aligned, and which spell words of one
length. -/
structure WellCut
    (ignoreCase : Bool)
    (limit length : Nat)
    (branches : Branches ι) :
    Prop where
  one : branches.OfOneLength length
  aligned : Chunk.Aligned ignoreCase limit branches.chunks
  nodes : branches.EveryNode (Chunk.Aligned ignoreCase limit)

theorem wellCut_nil
    {ignoreCase : Bool}
    {limit length : Nat}
    (positive : 0 < limit) :
    (nil : Branches ι).WellCut ignoreCase limit length := by
  refine ⟨⟨trivial, trivial, by simp, by simp⟩, ?_, trivial⟩
  exact ⟨List.nodup_nil, ⟨1, ⟨positive, 0, rfl⟩, by simp [chunks]⟩,
    by simp [chunks], by simp [chunks]⟩

theorem recutWithin_nil (cutting : Cutting) (bound : Nat) :
    (nil : Branches ι).recutWithin cutting bound = nil := by
  cases bound <;> rfl

theorem eq_nil_of_levelBound
    {branches : Branches ι}
    (bounded : branches.levelBound ≤ 0) :
    branches = nil := by
  cases branches with
  | nil => rfl
  | cons chunk tag terminal below rest =>
    rw [levelBound] at bounded
    omega

/-- Recutting keeps the words of branches. -/
theorem mem_words_recutWithin
    {cutting : Cutting}
    (positive : 0 < cutting.maxWidth)
    {bound length : Nat}
    {branches : Branches ι}
    (one : branches.OfOneLength length)
    (enough : branches.levelBound ≤ bound)
    {word : Bytes}
    {member : Enumerator} :
    (word, member) ∈ (branches.recutWithin cutting bound).words ↔
      (word, member) ∈ branches.words := by
  induction bound generalizing length branches word with
  | zero => rw [eq_nil_of_levelBound enough, recutWithin_nil, words_nil,
      words_nil]
  | succ bound hypothesis =>
    have deeper : ∀ start ∈ branches.starts cutting, ∀ tail,
        (tail, member) ∈
            ((branches.group cutting start).recutWithin cutting bound).words ↔
          (tail, member) ∈ (branches.group cutting start).words :=
      fun start listed _ => hypothesis (one.start_of_group listed)
        (one.levelBound_start positive enough start)
    rw [recutWithin_succ, mem_words_fan]
    constructor
    · rintro ⟨start, listed, ⟨rfl, ends⟩ | ⟨tail, rfl, inside⟩⟩
      · exact (one.groupTerminal_eq_some_iff listed).mp ends
      · rw [deeper start listed, one.mem_words_start listed] at inside
        exact inside.2
    · intro present
      obtain ⟨start, listed, tail, rfl⟩ :=
        exists_start cutting present
      refine ⟨start, listed, ?_⟩
      cases tail with
      | nil =>
        rw [List.append_nil] at present ⊢
        exact Or.inl ⟨rfl, (one.groupTerminal_eq_some_iff listed).mpr present⟩
      | cons byte tail =>
        refine Or.inr ⟨byte :: tail, rfl, ?_⟩
        rw [deeper start listed, one.mem_words_start listed]
        exact ⟨by simp, present⟩

theorem isNil_recutWithin
    {cutting : Cutting}
    (positive : 0 < cutting.maxWidth)
    {bound length : Nat}
    {branches : Branches ι}
    (one : branches.OfOneLength length)
    (enough : branches.levelBound ≤ bound) :
    (branches.recutWithin cutting bound).isNil = branches.isNil := by
  cases branches with
  | nil => rw [recutWithin_nil]; rfl
  | cons chunk tag terminal below rest =>
    obtain ⟨word, member, present⟩ := one.leaves.exists_word (by simp)
    rw [← mem_words_recutWithin positive one enough] at present
    rw [isNil, Bool.eq_false_iff, Ne, isNil_eq_true_iff]
    intro none_left
    rw [none_left] at present
    cases present

/-- Recutting keeps that words of one length are spelled, and that they end at
the leaves. -/
theorem ofOneLength_recutWithin
    {cutting : Cutting}
    (positive : 0 < cutting.maxWidth)
    {bound length : Nat}
    {branches : Branches ι}
    (one : branches.OfOneLength length)
    (enough : branches.levelBound ≤ bound) :
    (branches.recutWithin cutting bound).OfOneLength length := by
  induction bound generalizing length branches with
  | zero =>
    rw [eq_nil_of_levelBound enough, recutWithin_nil]
    exact ⟨trivial, trivial, by simp, by simp⟩
  | succ bound hypothesis =>
    have width_pos := (readableWithin_commonWidth positive branches).pos
    have lower := one.levelBound_start positive enough
    have deeper := fun start (listed : start ∈ branches.starts cutting) =>
      hypothesis (one.start_of_group listed) (lower start)
    have words_iff : ∀ word member,
        (word, member) ∈ (branches.recutWithin cutting (bound + 1)).words ↔
          (word, member) ∈ branches.words :=
      fun _ _ => mem_words_recutWithin positive one enough
    refine ⟨?_, ?_, ?_, ?_⟩
    · rw [recutWithin_succ, everyChunk_fan]
      intro start listed
      refine ⟨?_, (deeper start listed).nonempty⟩
      rw [← List.length_pos_iff, length_start one listed]
      exact width_pos
    · rw [recutWithin_succ, wordsAtLeaves_fan]
      intro start listed
      refine ⟨?_, (deeper start listed).leaves⟩
      rw [isNil_recutWithin positive (one.start_of_group listed) (lower start),
        one.isNil_group listed]
    · intro word member present
      exact one.length_eq word member ((words_iff word member).mp present)
    · intro word first second first_mem second_mem
      exact one.functional word first second
        ((words_iff word first).mp first_mem)
        ((words_iff word second).mp second_mem)

/-- Recutting aligns all nodes and keeps words at the leaves. -/
theorem wellCut_recutWithin
    {cutting : Cutting}
    (positive : 0 < cutting.maxWidth)
    {bound length : Nat}
    {branches : Branches ι}
    (one : branches.OfOneLength length)
    (noUpper : cutting.ignoreCase = true → branches.EveryChunk Bytes.NoUpper)
    (enough : branches.levelBound ≤ bound) :
    (branches.recutWithin cutting bound).WellCut cutting.ignoreCase
      cutting.maxWidth length := by
  induction bound generalizing length branches with
  | zero =>
    rw [eq_nil_of_levelBound enough, recutWithin_nil]
    exact wellCut_nil positive
  | succ bound hypothesis =>
    have lower := one.levelBound_start positive enough
    have deeper := fun start (listed : start ∈ branches.starts cutting) =>
      hypothesis (one.start_of_group listed)
        (fun ignored => noUpper_group (noUpper ignored)) (lower start)
    refine ⟨ofOneLength_recutWithin positive one enough, ?_, ?_⟩
    · rw [recutWithin_succ, chunks_fan]
      exact aligned_starts positive one noUpper
    · rw [recutWithin_succ, everyNode_fan]
      intro start listed
      exact ⟨(deeper start listed).aligned, (deeper start listed).nodes⟩

end Branches

namespace Trie

/-- A trie of words of one length of which all nodes are aligned. -/
structure WellCut
    (ignoreCase : Bool)
    (limit length : Nat)
    (trie : Trie) :
    Prop where
  one : trie.OfOneLength length
  aligned : Chunk.Aligned ignoreCase limit trie.branches.chunks
  nodes : trie.branches.EveryNode (Chunk.Aligned ignoreCase limit)

section

variable
  {length maxWidth : Nat}
  {trie : Trie}

theorem mem_words_recut
    (one : trie.OfOneLength length)
    (ignoreCase : Bool)
    {word : Bytes}
    {member : Enumerator} :
    (word, member) ∈ (trie.recut ignoreCase maxWidth).words ↔
      (word, member) ∈ trie.words := by
  have positive : 0 < max maxWidth 1 := by omega
  rw [mem_words, mem_words]
  refine or_congr Iff.rfl ?_
  unfold recut
  rw [Branches.words_numberDownward]
  exact Branches.mem_words_recutWithin positive one.branches (Nat.le_refl _)

/-- Recutting a trie of words of one length gives such a trie again. -/
theorem OfOneLength.recut
    (one : trie.OfOneLength length)
    (ignoreCase : Bool)
    (maxWidth : Nat) :
    (trie.recut ignoreCase maxWidth).OfOneLength length := by
  let cutting : Cutting := ⟨ignoreCase, max maxWidth 1⟩
  have positive : 0 < cutting.maxWidth := Nat.lt_of_lt_of_le Nat.one_pos
    (Nat.le_max_right maxWidth 1)
  have enough := Nat.le_refl trie.branches.levelBound
  have ends : (trie.branches.recut cutting).isNil = trie.branches.isNil :=
    Branches.isNil_recutWithin positive one.branches enough
  refine ⟨?_, ?_, one.atRoot⟩
  · rw [← Branches.ofOneLength_shape, Trie.recut,
      Branches.shape_numberDownward, Branches.shape_unit]
    exact Branches.ofOneLength_recutWithin positive one.branches enough
  · rw [← Branches.isNil_shape, Trie.recut, Branches.shape_numberDownward,
      Branches.shape_unit]
    exact ends.trans one.leaf

/-- Recutting a trie of words of one length aligns all of its nodes. -/
theorem wellCut_recut
    (positive : 0 < maxWidth)
    (one : trie.OfOneLength length)
    {ignoreCase : Bool}
    (noUpper : ignoreCase = true →
      trie.branches.EveryChunk Bytes.NoUpper) :
    (trie.recut ignoreCase maxWidth).WellCut ignoreCase maxWidth length := by
  have limit_eq : max maxWidth 1 = maxWidth := by omega
  let cutting : Cutting := ⟨ignoreCase, maxWidth⟩
  have cut : (trie.branches.recut cutting).WellCut ignoreCase maxWidth length :=
    @Branches.wellCut_recutWithin _ cutting positive _ _ _ one.branches noUpper
      (Nat.le_refl _)
  refine ⟨one.recut ignoreCase maxWidth, ?_, ?_⟩
  · rw [← Branches.chunks_shape, recut, limit_eq,
      Branches.shape_numberDownward, Branches.shape_unit]
    exact cut.aligned
  · rw [← Branches.everyNode_shape, recut, limit_eq,
      Branches.shape_numberDownward, Branches.shape_unit]
    exact cut.nodes

end

end Trie
end WordSwitch
