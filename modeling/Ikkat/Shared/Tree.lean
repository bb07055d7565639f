import Mathlib.Data.List.AList
import Mathlib.Data.List.Induction

set_option autoImplicit false

namespace FileTree

inductive Node (Content : Type) where
  | file (content : Content)
  | dir
  deriving DecidableEq, Repr

section

variable {Name Content : Type} [DecidableEq Name]

abbrev Nodes (Name Content : Type) := AList fun _ : List Name => Node Content

-- The empty path is the root, a directory that is never stored.
def find (nodes : Nodes Name Content) (path : List Name) : Option (Node Content) :=
  if path = [] then some .dir else nodes.lookup path

end

structure Tree (Name Content : Type) [DecidableEq Name] where
  nodes : Nodes Name Content
  closed : ∀ path, path ≠ [] → find nodes path ≠ none → find nodes path.dropLast = some .dir

namespace Tree

variable {Name Content : Type} [DecidableEq Name]

def find (tree : Tree Name Content) (path : List Name) : Option (Node Content) :=
  FileTree.find tree.nodes path

def empty : Tree Name Content where
  nodes := ∅
  closed := by
    intro path nonempty present
    simp [FileTree.find, nonempty] at present

@[simp] theorem find_root (tree : Tree Name Content) : tree.find [] = some .dir := rfl

@[simp] theorem find_empty (path : List Name) :
    (empty : Tree Name Content).find path = if path = [] then some .dir else none := rfl

theorem find_dropLast (tree : Tree Name Content) (path : List Name) (nonempty : path ≠ [])
    (present : tree.find path ≠ none) : tree.find path.dropLast = some .dir :=
  tree.closed path nonempty present

def put (tree : Tree Name Content) (path : List Name) (node : Node Content)
    (parent : tree.find path.dropLast = some .dir) (leaf : tree.find path ≠ some .dir) :
    Tree Name Content where
  nodes := tree.nodes.insert path node
  closed := by
    have nonempty : path ≠ [] := by rintro rfl; exact leaf rfl
    have other (target : List Name) (different : target ≠ path) :
        FileTree.find (tree.nodes.insert path node) target = tree.find target := by
      simp [Tree.find, FileTree.find, AList.lookup_insert_ne different]
    intro target filled present
    by_cases same : target = path
    · subst same
      rw [other]
      · exact parent
      · intro equal
        have shorter := congrArg List.length equal
        have positive := List.length_pos_of_ne_nil nonempty
        simp only [List.length_dropLast] at shorter
        omega
    · rw [other _ same] at present
      have above := tree.find_dropLast target filled present
      rw [other]
      · exact above
      · intro equal
        exact leaf (equal ▸ above)

theorem find_put (tree : Tree Name Content) (path target : List Name) (node : Node Content)
    (parent : tree.find path.dropLast = some .dir) (leaf : tree.find path ≠ some .dir) :
    (tree.put path node parent leaf).find target =
      if target = path then some node else tree.find target := by
  have nonempty : path ≠ [] := by rintro rfl; exact leaf rfl
  by_cases same : target = path
  · subst same
    simp [find, FileTree.find, put, nonempty]
  · simp [find, FileTree.find, put, same]

def writeFile (tree : Tree Name Content) (path : List Name) (content : Content) :
    Option (Tree Name Content) :=
  match parent : tree.find path.dropLast, leaf : tree.find path with
  | some .dir, none => some (tree.put path (.file content) parent (by simp [leaf]))
  | some .dir, some (.file _) => some (tree.put path (.file content) parent (by simp [leaf]))
  | _, _ => none

theorem find_writeFile {tree next : Tree Name Content} {path : List Name} (target : List Name) {content : Content}
    (written : tree.writeFile path content = some next) :
    next.find target = if target = path then some (.file content) else tree.find target := by
  unfold writeFile at written
  split at written
  case h_3 => cases written
  all_goals
    cases written
    exact find_put ..

theorem writeFile_into (tree : Tree Name Content) (path : List Name) (content : Content)
    (parent : tree.find path.dropLast = some .dir) (leaf : tree.find path ≠ some .dir) :
    ∃ next, tree.writeFile path content = some next := by
  unfold writeFile
  split
  case h_3 absent file =>
    cases found : tree.find path with
    | none => exact absurd found (absent parent)
    | some node =>
      cases node with
      | dir => exact absurd found leaf
      | file old => exact absurd found (file old parent)
  all_goals exact ⟨_, rfl⟩

theorem writeFile_place {tree next : Tree Name Content} {path : List Name} {content : Content}
    (written : tree.writeFile path content = some next) :
    tree.find path.dropLast = some .dir ∧ tree.find path ≠ some .dir := by
  unfold writeFile at written
  split at written
  case h_1 parent leaf => exact ⟨parent, by simp [leaf]⟩
  case h_2 parent leaf => exact ⟨parent, by simp [leaf]⟩
  case h_3 => cases written

theorem writeFile_over (tree : Tree Name Content) (path : List Name) (old content : Content)
    (present : tree.find path = some (.file old)) :
    ∃ next, tree.writeFile path content = some next := by
  have nonempty : path ≠ [] := by rintro rfl; simp at present
  exact tree.writeFile_into path content (tree.find_dropLast path nonempty (by simp [present])) (by simp [present])

def mkdir (tree : Tree Name Content) (path : List Name) : Option (Tree Name Content) :=
  match parent : tree.find path.dropLast, leaf : tree.find path with
  | some .dir, none => some (tree.put path .dir parent (by simp [leaf]))
  | _, some .dir => some tree
  | _, _ => none

theorem find_mkdir {tree next : Tree Name Content} {path : List Name} (target : List Name)
    (made : tree.mkdir path = some next) :
    next.find target = if target = path then some .dir else tree.find target := by
  unfold mkdir at made
  split at made
  case h_1 =>
    cases made
    exact find_put ..
  case h_2 present =>
    cases made
    split_ifs with same
    · rw [same, present]
    · rfl
  case h_3 => cases made

theorem find_mkdir_present {tree next : Tree Name Content} {path target : List Name}
    (made : tree.mkdir path = some next) (present : tree.find target ≠ none) :
    next.find target = tree.find target := by
  rw [find_mkdir target made]
  split_ifs with same
  · unfold mkdir at made
    split at made
    case h_1 absent => exact absurd (same ▸ absent) present
    case h_2 dir => rw [same, dir]
    case h_3 => cases made
  · rfl

theorem mkdir_dir {tree : Tree Name Content} {path : List Name} (dir : tree.find path = some .dir) :
    tree.mkdir path = some tree := by
  unfold mkdir
  split
  case h_1 absent => simp [dir] at absent
  case h_2 => rfl
  case h_3 other _ => exact (other dir).elim

def mkdirFrom (tree : Tree Name Content) (above : List Name) :
    List Name → Option (Tree Name Content)
  | [] => some tree
  | name :: below => do
      let next ← tree.mkdir (above ++ [name])
      next.mkdirFrom (above ++ [name]) below

def mkdirAll (tree : Tree Name Content) (path : List Name) : Option (Tree Name Content) :=
  tree.mkdirFrom [] path

theorem find_mkdirFrom_present (tree : Tree Name Content) {next : Tree Name Content} (above below : List Name) {target : List Name}
    (made : tree.mkdirFrom above below = some next) (present : tree.find target ≠ none) :
    next.find target = tree.find target := by
  induction below generalizing tree above with
  | nil => cases made; rfl
  | cons name rest ih =>
    obtain ⟨middle, first, later⟩ := Option.bind_eq_some_iff.mp made
    have kept := find_mkdir_present first present
    rw [ih middle (above ++ [name]) later (kept ▸ present), kept]

theorem find_mkdirFrom_file (tree : Tree Name Content) {next : Tree Name Content} (above below : List Name) {target : List Name}
    {content : Content} (made : tree.mkdirFrom above below = some next)
    (found : next.find target = some (.file content)) : tree.find target = some (.file content) := by
  induction below generalizing tree above with
  | nil => cases made; exact found
  | cons name rest ih =>
    obtain ⟨middle, first, later⟩ := Option.bind_eq_some_iff.mp made
    have before := ih middle (above ++ [name]) later
    rw [find_mkdir target first] at before
    split_ifs at before with same
    · simp at before
    · exact before

theorem find_take (tree : Tree Name Content) (path : List Name) (dir : tree.find path = some .dir)
    (count : Nat) : tree.find (path.take count) = some .dir := by
  induction path using List.reverseRecOn generalizing count with
  | nil => simp
  | append_singleton front name ih =>
    have parent := tree.find_dropLast (front ++ [name]) (by simp) (by simp [dir])
    rw [List.dropLast_concat] at parent
    rcases Nat.lt_or_ge front.length count with past | within
    · rwa [List.take_of_length_le (by simp; omega)]
    · rw [List.take_append_of_le_length within]
      exact ih parent count

theorem mkdirFrom_dir {tree : Tree Name Content} (above below : List Name)
    (dir : tree.find (above ++ below) = some .dir) : tree.mkdirFrom above below = some tree := by
  induction below generalizing above with
  | nil => rfl
  | cons name rest ih =>
    have here : tree.find (above ++ [name]) = some .dir := by
      have front : (above ++ name :: rest).take (above.length + 1) = above ++ [name] := by
        rw [List.take_append, List.take_of_length_le (by omega)]
        simp
      rw [← front]
      exact tree.find_take _ dir _
    simp only [mkdirFrom, mkdir_dir here]
    exact ih (above ++ [name]) (by simpa using dir)

theorem mkdirFrom_free (tree : Tree Name Content) (above below : List Name) (dir : tree.find above = some .dir)
    (free : ∀ count content, tree.find (above ++ below.take count) ≠ some (.file content)) :
    ∃ next, tree.mkdirFrom above below = some next ∧ next.find (above ++ below) = some .dir ∧
      ∀ target, next.find target = tree.find target ∨
        next.find target = some .dir ∧ ∃ count, target = above ++ below.take count := by
  induction below generalizing tree above with
  | nil => exact ⟨tree, rfl, by rwa [List.append_nil], fun _ => .inl rfl⟩
  | cons name rest ih =>
    obtain ⟨middle, made⟩ : ∃ middle, tree.mkdir (above ++ [name]) = some middle := by
      unfold mkdir
      split
      case h_3 present absent =>
        rw [List.dropLast_concat] at absent
        cases found : tree.find (above ++ [name]) with
        | none => exact absurd found (absent dir)
        | some node =>
          cases node with
          | dir => exact absurd found present
          | file content => exact absurd found (by simpa using free 1 content)
      all_goals exact ⟨_, rfl⟩
    have found := fun target => find_mkdir target made
    obtain ⟨next, later, leaf, others⟩ := ih middle (above ++ [name]) (by rw [found, if_pos rfl]) (by
      intro count content
      rw [found]
      split_ifs with same
      · simp
      · simpa using free (count + 1) content)
    refine ⟨next, ?_, by simpa using leaf, fun target => ?_⟩
    · simp only [mkdirFrom, made]
      exact later
    · rcases others target with same | ⟨here, count, rfl⟩
      · rw [found] at same
        split_ifs at same with equal
        · exact .inr ⟨same, 1, by simpa using equal⟩
        · exact .inl same
      · exact .inr ⟨here, count + 1, by simp⟩

theorem mkdirAll_free (tree : Tree Name Content) (path : List Name)
    (free : ∀ count content, tree.find (path.take count) ≠ some (.file content)) :
    ∃ next, tree.mkdirAll path = some next ∧ next.find path = some .dir ∧
      ∀ target, next.find target = tree.find target ∨ next.find target = some .dir ∧ ∃ count, target = path.take count :=
  mkdirFrom_free tree [] path rfl free

theorem find_mkdirAll_present {tree next : Tree Name Content} {path : List Name} (target : List Name)
    (made : tree.mkdirAll path = some next) (present : tree.find target ≠ none) :
    next.find target = tree.find target :=
  find_mkdirFrom_present tree [] path made present

theorem find_mkdirAll_file {tree next : Tree Name Content} {path : List Name} (target : List Name)
    (content : Content) (made : tree.mkdirAll path = some next)
    (found : next.find target = some (.file content)) : tree.find target = some (.file content) :=
  find_mkdirFrom_file tree [] path made found

theorem mkdirAll_dir {tree : Tree Name Content} {path : List Name}
    (dir : tree.find path = some .dir) : tree.mkdirAll path = some tree :=
  mkdirFrom_dir [] path dir

def childPaths (tree : Tree Name Content) (path : List Name) : List (List Name) :=
  tree.nodes.keys.filter fun key => decide (key ≠ [] ∧ key.dropLast = path)

def names (tree : Tree Name Content) (path : List Name) : List Name :=
  (tree.childPaths path).filterMap List.getLast?

theorem mem_childPaths (tree : Tree Name Content) (path child : List Name) :
    child ∈ tree.childPaths path ↔
      child ≠ [] ∧ child.dropLast = path ∧ tree.find child ≠ none := by
  simp only [childPaths, List.mem_filter, decide_eq_true_eq]
  constructor
  · rintro ⟨member, nonempty, under⟩
    refine ⟨nonempty, under, ?_⟩
    simpa [find, FileTree.find, nonempty, AList.lookup_eq_none, AList.mem_keys] using member
  · rintro ⟨nonempty, under, present⟩
    refine ⟨?_, nonempty, under⟩
    simpa [find, FileTree.find, nonempty, AList.lookup_eq_none, AList.mem_keys] using present

def remove (tree : Tree Name Content) (path : List Name) : Option (Tree Name Content) :=
  if _ : path ≠ [] ∧ tree.find path ≠ none ∧ tree.childPaths path = [] then
    some
      { nodes := tree.nodes.erase path
        closed := by
          have other (target : List Name) (different : target ≠ path) :
              FileTree.find (tree.nodes.erase path) target = tree.find target := by
            simp [Tree.find, FileTree.find, AList.lookup_erase_ne different]
          intro target filled present
          by_cases same : target = path
          · subst same
            simp [FileTree.find, filled] at present
          · rw [other _ same] at present
            rw [other]
            · exact tree.find_dropLast target filled present
            · intro equal
              have child := (tree.mem_childPaths path target).mpr ⟨filled, equal, present⟩
              simp_all }
  else none

theorem find_remove {tree next : Tree Name Content} {path : List Name} (target : List Name)
    (removed : tree.remove path = some next) :
    next.find target = if target = path then none else tree.find target := by
  unfold remove at removed
  split at removed
  case isTrue allowed =>
    cases removed
    by_cases same : target = path
    · subst same
      simp [find, FileTree.find, allowed.1]
    · simp [find, FileTree.find, same]
  case isFalse => cases removed

theorem find_of_remove {tree next : Tree Name Content} {path : List Name} (removed : tree.remove path = some next) :
    tree.find path ≠ none := by
  unfold remove at removed
  split at removed
  case isTrue allowed => exact allowed.2.1
  case isFalse => cases removed

theorem remove_file {tree : Tree Name Content} {path : List Name} {content : Content}
    (present : tree.find path = some (.file content)) : ∃ next, tree.remove path = some next := by
  have filled : path ≠ [] := by
    rintro rfl
    simp at present
  have childless : tree.childPaths path = [] := by
    rw [List.eq_nil_iff_forall_not_mem]
    intro child listed
    obtain ⟨nonempty, above, found⟩ := (tree.mem_childPaths path child).mp listed
    have dir := tree.find_dropLast child nonempty found
    rw [above, present] at dir
    cases dir
  unfold remove
  rw [dif_pos ⟨filled, by simp [present], childless⟩]
  exact ⟨_, rfl⟩

end Tree

end FileTree
