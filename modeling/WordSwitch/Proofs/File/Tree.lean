import WordSwitch.File.Tree

/-!
# What operations on file trees change

Each operation is described by what is found afterwards at every location.
Making directories adds directories where nothing was.  Creating a file empties
what is at one location, and writing changes the content there.
-/

namespace WordSwitch

/-- What succeeds in two steps succeeds in each of them. -/
theorem exists_of_bind_eq_ok
    {ε α β : Type}
    {first : Except ε α}
    {second : α → Except ε β}
    {result : β}
    (succeeds : first >>= second = .ok result) :
    ∃ value, first = .ok value ∧ second value = .ok result := by
  cases first with
  | error failure => cases succeeds
  | ok value => exact ⟨value, rfl, succeeds⟩

namespace FileTree

/-! ## One location -/

theorem lookup_filter_of_ne
    {items : List (Location × FileItem)}
    {location other : Location}
    (different : other ≠ location) :
    (items.filter (·.1 != location)).lookup other = items.lookup other := by
  induction items with
  | nil => rfl
  | cons item rest hypothesis =>
    obtain ⟨place, item⟩ := item
    by_cases here : place = location
    · subst here
      have apart : (other == place) = false := by simpa using different
      simp [hypothesis, List.lookup_cons, apart]
    · have kept : (place != location) = true := by simpa using here
      simp [kept, List.lookup_cons, hypothesis]

/-- What is put somewhere is found there. -/
theorem get?_put_self
    (tree : FileTree)
    {location : Location}
    (inner : location ≠ [])
    (item : FileItem) :
    (tree.put location item).get? location = some item := by
  simp [get?, put, inner]

/-- Elsewhere the same is found as before. -/
theorem get?_put_of_ne
    (tree : FileTree)
    {location other : Location}
    (different : other ≠ location)
    (item : FileItem) :
    (tree.put location item).get? other = tree.get? other := by
  have apart : (other == location) = false := by simpa using different
  simp [get?, put, List.lookup_cons, apart, lookup_filter_of_ne different]

/-- The content of the file at a location, if there is one. -/
def content? (tree : FileTree) (location : Location) : Option Bytes :=
  match tree.get? location with
  | some (.file content) => some content
  | _ => none

theorem content?_eq_some_iff
    {tree : FileTree}
    {location : Location}
    {content : Bytes} :
    tree.content? location = some content ↔
      tree.get? location = some (.file content) := by
  unfold content?
  split <;> simp_all

/-- Only places below the outermost directory hold files. -/
theorem ne_nil_of_content?
    {tree : FileTree}
    {location : Location}
    {content : Bytes}
    (holds : tree.content? location = some content) :
    location ≠ [] := by
  rintro rfl
  cases content?_eq_some_iff.mp holds

theorem content?_put_file_self
    (tree : FileTree)
    {location : Location}
    (inner : location ≠ [])
    (content : Bytes) :
    (tree.put location (.file content)).content? location = some content :=
  content?_eq_some_iff.mpr (tree.get?_put_self inner _)

theorem content?_put_of_ne
    (tree : FileTree)
    {location other : Location}
    (different : other ≠ location)
    (item : FileItem) :
    (tree.put location item).content? other = tree.content? other := by
  rw [content?, content?, tree.get?_put_of_ne different]

/-! ## Files that are kept -/

/-- Two trees hold the same files. -/
def SameFiles (before after : FileTree) : Prop :=
  ∀ location, after.content? location = before.content? location

namespace SameFiles

theorem refl (tree : FileTree) : SameFiles tree tree := fun _ => rfl

theorem trans
    {first second third : FileTree}
    (former : SameFiles first second)
    (latter : SameFiles second third) :
    SameFiles first third :=
  fun location => (latter location).trans (former location)

end SameFiles

/-! ## Directories -/

variable {tree after : FileTree} {path : Path}

/-- A directory is made where nothing was. -/
theorem sameFiles_makeDirectory
    (made : tree.makeDirectory path = .ok after) :
    SameFiles tree after := by
  obtain ⟨parent, -, made⟩ := exists_of_bind_eq_ok made
  obtain ⟨place, -, made⟩ := exists_of_bind_eq_ok made
  split at made
  · cases made
  · next vacant =>
    cases made
    intro location
    by_cases here : location = place
    · subst here
      have inner : location ≠ [] := by
        rintro rfl
        cases vacant
      simp [content?, tree.get?_put_self inner, vacant]
    · exact tree.content?_put_of_ne here _

theorem sameFiles_orDirectory
    {made : Except FileFailure FileTree}
    (keeps : ∀ {next}, made = .ok next → SameFiles tree next)
    (kept : tree.orDirectory path made = .ok after) :
    SameFiles tree after := by
  unfold orDirectory at kept
  split at kept
  · cases kept
    exact keeps rfl
  · split at kept
    · cases kept
      exact .refl tree
    · cases kept

/-- Directories are made nearest last, each with those above it. -/
theorem sameFiles_makeDirectories
    {paths : List Path}
    (made : tree.makeDirectories paths = .ok after) :
    SameFiles tree after := by
  induction paths generalizing tree after with
  | nil =>
    cases made
    exact .refl tree
  | cons path above hypothesis =>
    unfold makeDirectories at made
    split at made
    · obtain ⟨next, above_made, made⟩ := exists_of_bind_eq_ok made
      exact (hypothesis above_made).trans
        (sameFiles_orDirectory sameFiles_makeDirectory made)
    · exact sameFiles_orDirectory sameFiles_makeDirectory made

theorem sameFiles_makeParents
    (made : tree.makeParents path = .ok after) :
    SameFiles tree after :=
  sameFiles_makeDirectories made

/-! ## Files -/

/-- Creating a file leaves an empty one. -/
theorem create_eq_ok
    {location : Location}
    (created : tree.create path = .ok (location, after)) :
    location ≠ [] ∧ after = tree.put location (.file []) := by
  obtain ⟨above, -, created⟩ := exists_of_bind_eq_ok created
  obtain ⟨_, -, created⟩ := exists_of_bind_eq_ok created
  dsimp only at created
  split at created
  · cases created
  · obtain ⟨place, -, created⟩ := exists_of_bind_eq_ok created
    split at created
    · cases created
    · next isFile =>
      cases created
      refine ⟨?_, rfl⟩
      rintro rfl
      exact isFile rfl

/-- Bytes that are written replace as many at the start of a file. -/
def overwrite (content bytes : Bytes) : Bytes :=
  bytes ++ content.drop bytes.length

@[simp] theorem overwrite_nil (bytes : Bytes) : overwrite [] bytes = bytes := by
  simp [overwrite]

/-- Writing changes the content at one location. -/
theorem content?_write
    (tree : FileTree)
    (location other : Location)
    (bytes : Bytes) :
    (tree.write location bytes).content? other =
      if other = location then
        (tree.content? other).map (overwrite · bytes)
      else tree.content? other := by
  unfold write
  split
  · next content isFile =>
    have holds := content?_eq_some_iff.mpr isFile
    split
    · next here =>
      subst here
      rw [holds, content?_put_file_self _ (ne_nil_of_content? holds)]
      rfl
    · next elsewhere => exact tree.content?_put_of_ne elsewhere _
  · next noFile =>
    split
    · next here =>
      subst here
      cases holds : tree.content? other with
      | none => rfl
      | some content =>
        exact absurd (content?_eq_some_iff.mp holds) (noFile content)
    · rfl

end FileTree
end WordSwitch
