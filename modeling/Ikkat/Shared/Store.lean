import Ikkat.Shared.Tree

set_option autoImplicit false

namespace FileTree.Tree

variable {Name Content : Type} [DecidableEq Name]

-- A file written together with the directories above it.
def store (tree : Tree Name Content) (path : List Name) (content : Content) :
    Option (Tree Name Content) := do
  let made ← tree.mkdirAll path.dropLast
  made.writeFile path content

structure Clear (tree : Tree Name Content) (path : List Name) : Prop where
  above : ∀ front, front <+: path.dropLast → ∀ content, tree.find front ≠ some (.file content)
  leaf : tree.find path ≠ some .dir

section Directories

theorem find_mkdirFrom (tree : Tree Name Content) {next : Tree Name Content} (above below target : List Name)
    (dir : tree.find above = some .dir) (made : tree.mkdirFrom above below = some next) :
    next.find target =
      if above <+: target ∧ target <+: above ++ below then some .dir else tree.find target := by
  induction below generalizing tree above with
  | nil =>
    cases made
    rw [List.append_nil]
    split_ifs with between
    · rw [between.2.eq_of_length_le between.1.length_le, dir]
    · rfl
  | cons name rest ih =>
    obtain ⟨middle, first, later⟩ := Option.bind_eq_some_iff.mp made
    have found := find_mkdir target first
    rw [ih middle (above ++ [name]) (by rw [find_mkdir _ first, if_pos rfl]) later,
      found, List.append_assoc, List.singleton_append]
    by_cases between : above <+: target ∧ target <+: above ++ name :: rest
    · rw [if_pos between]
      obtain ⟨⟨tail, rfl⟩, ends⟩ := between
      rw [List.prefix_append_right_inj] at ends
      cases tail with
      | nil => simp [dir]
      | cons head tail =>
        obtain ⟨rfl, _⟩ := List.cons_prefix_cons.mp ends
        rw [if_pos ⟨⟨tail, by simp⟩, by simpa using ends⟩]
    · have missed : ¬ (above ++ [name] <+: target ∧ target <+: above ++ name :: rest) :=
        fun inner => between ⟨(List.prefix_append _ _).trans inner.1, inner.2⟩
      have apart : target ≠ above ++ [name] := by
        rintro rfl
        exact between ⟨List.prefix_append _ _, by simp⟩
      rw [if_neg missed, if_neg apart, if_neg between]

theorem find_mkdirAll {tree next : Tree Name Content} {path : List Name} (target : List Name)
    (made : tree.mkdirAll path = some next) :
    next.find target = if target <+: path then some .dir else tree.find target := by
  rw [find_mkdirFrom tree [] path target rfl made]
  simp

end Directories

section Stored

variable {tree next : Tree Name Content} {path target : List Name} {content : Content}

theorem find_store (stored : tree.store path content = some next) (target : List Name) :
    next.find target =
      if target = path then some (.file content)
      else if target <+: path.dropLast then some .dir
      else tree.find target := by
  obtain ⟨made, dirs, written⟩ := Option.bind_eq_some_iff.mp stored
  rw [find_writeFile target written,
    find_mkdirAll target dirs]

theorem clear_of_store (stored : tree.store path content = some next) : tree.Clear path := by
  obtain ⟨made, dirs, written⟩ := Option.bind_eq_some_iff.mp stored
  constructor
  · intro front within old file
    have kept := find_mkdirAll_present front dirs (by simp [file])
    rw [find_mkdirAll front dirs, if_pos within, file] at kept
    simp at kept
  · intro dir
    have kept := find_mkdirAll_present path dirs (by simp [dir])
    rw [dir] at kept
    exact (writeFile_place written).2 kept

omit [DecidableEq Name] in
theorem not_prefix_dropLast (nonempty : path ≠ []) : ¬ path <+: path.dropLast := by
  intro whole
  have short := whole.length_le
  rw [List.length_dropLast] at short
  exact nonempty (List.eq_nil_of_length_eq_zero (by omega))

theorem Clear.nonempty (clear : tree.Clear path) : path ≠ [] :=
  fun root => clear.leaf (root ▸ tree.find_root)

theorem Clear.store (clear : tree.Clear path) (content : Content) :
    ∃ next, tree.store path content = some next := by
  obtain ⟨made, dirs, parent, others⟩ := tree.mkdirAll_free path.dropLast
    fun count old => clear.above _ (List.take_prefix count _) old
  have leaf : made.find path ≠ some .dir := by
    rw [find_mkdirAll path dirs]
    split_ifs with whole
    · exact absurd whole (not_prefix_dropLast clear.nonempty)
    · exact clear.leaf
  obtain ⟨next, written⟩ := made.writeFile_into path content parent leaf
  exact ⟨next, Option.bind_eq_some_iff.mpr ⟨made, dirs, written⟩⟩

theorem clear_store_iff {other : List Name} (stored : tree.store other content = some next)
    (outside : path <+: other → path = other) (inside : other <+: path → path = other) :
    next.Clear path ↔ tree.Clear path := by
  have within {front : List Name} (parent : front <+: path.dropLast) (clear : path ≠ []) :
      front ≠ other := by
    rintro rfl
    have equal := inside (parent.trans (List.dropLast_prefix path))
    exact absurd (equal ▸ parent) (not_prefix_dropLast clear)
  constructor
  · intro clear
    constructor
    · intro front parent old file
      have kept := clear.above front parent old
      rw [find_store stored, if_neg (within parent clear.nonempty)] at kept
      split_ifs at kept with dir
      · exact (clear_of_store stored).above front dir old file
      · exact kept file
    · intro dir
      have kept := clear.leaf
      rw [find_store stored] at kept
      split_ifs at kept with same above
      · exact (clear_of_store stored).leaf (same ▸ dir)
      · exact kept rfl
      · exact kept dir
  · intro clear
    constructor
    · intro front parent old
      rw [find_store stored, if_neg (within parent clear.nonempty)]
      split_ifs with dir
      · simp
      · exact clear.above front parent old
    · rw [find_store stored]
      split_ifs with same dir
      · simp
      · exact absurd (outside (dir.trans (List.dropLast_prefix other))) same
      · exact clear.leaf

theorem mkdirAll_of_refused {made : Tree Name Content} (dirs : tree.mkdirAll path.dropLast = some made)
    (refused : made.writeFile path content = none) : made = tree := by
  have found := fun target => find_mkdirAll target dirs
  have leaf : made.find path = some .dir := by
    by_contra free
    have parent : made.find path.dropLast = some .dir := by
      rw [found, if_pos (List.prefix_refl _)]
    obtain ⟨next, written⟩ := made.writeFile_into path content parent free
    simp [written] at refused
  have before : tree.find path.dropLast = some .dir := by
    by_cases root : path = []
    · simp [root]
    · refine tree.find_dropLast path root ?_
      rw [found] at leaf
      split_ifs at leaf with whole
      · exact absurd whole (not_prefix_dropLast root)
      · simp [leaf]
  exact (Option.some.inj ((mkdirAll_dir before).symm.trans dirs)).symm

end Stored

end FileTree.Tree
