import Ikkat.Server

set_option autoImplicit false

namespace Ikkat

variable {path rest middle : Path} {name first : String}

theorem slash_notMem_splitOn (chars piece : List Char) (member : piece ∈ chars.splitOn '/') : '/' ∉ piece := by
  induction chars generalizing piece with
  | nil => simp_all
  | cons first rest ih =>
    obtain ⟨head, tail, split⟩ := List.exists_cons_of_ne_nil (List.splitOn_ne_nil '/' rest)
    rw [List.splitOn_cons_eq_if_modifyHead, split] at member
    by_cases slash : first = '/'
    · simp only [slash, beq_self_eq_true, if_true, List.mem_cons] at member
      rcases member with rfl | inside
      · simp
      · exact ih piece (by simpa [split] using inside)
    · simp only [beq_iff_eq, slash, if_false, List.modifyHead_cons, List.mem_cons] at member
      rcases member with rfl | inside
      · have held := ih head (by simp [split])
        simpa [Ne.symm slash] using held
      · exact ih piece (by simp [split, inside])

theorem parts_noSlash (name part : String) (member : part ∈ parts name) : '/' ∉ part.toList := by
  obtain ⟨chars, inside, rfl⟩ := List.mem_map.mp member
  rw [String.toList_ofList]
  exact slash_notMem_splitOn _ _ inside

structure Cleaned (path : Path) : Prop where
  noSlash : ∀ part ∈ path, '/' ∉ part.toList
  filled : ∀ part ∈ path, part ≠ "" ∧ part ≠ "."
  front : path.head? ≠ some ".." → ".." ∉ path

inductive CleanStep (kept : Path) : String → Path → Prop where
  | skip (part : String) (empty : part = "" ∨ part = ".") : CleanStep kept part kept
  | up (above : kept.getLast?.getD ".." = "..") : CleanStep kept ".." (kept ++ [".."])
  | back (last : String) (found : kept.getLast? = some last) (below : last ≠ "..") :
      CleanStep kept ".." kept.dropLast
  | down (part : String) (ordinary : Ordinary part) : CleanStep kept part (kept ++ [part])

theorem cleanStep_cases (kept : Path) (part : String) : CleanStep kept part (cleanStep false kept part) := by
  unfold cleanStep
  by_cases empty : part = "" ∨ part = "."
  · rw [if_pos empty]
    exact .skip part empty
  · rw [if_neg empty]
    by_cases isUp : part = ".."
    · subst isUp
      rw [if_pos rfl]
      split
      case h_1 nothing =>
        obtain rfl : kept = [] := List.getLast?_eq_none_iff.mp nothing
        exact .up rfl
      case h_2 last found =>
        by_cases again : last = ".."
        · rw [if_pos again]
          exact .up (by rw [found, Option.getD_some, again])
        · rw [if_neg again]
          exact .back last found again
    · rw [if_neg isUp]
      exact .down part ⟨fun nothing => empty (.inl nothing), fun dot => empty (.inr dot), isUp⟩

variable {part p safe last : String}

theorem cleaned_append {kept : Path} (cleaned : Cleaned kept) (noSlash : '/' ∉ part.toList)
    (filled : part ≠ "" ∧ part ≠ ".") (front : part = ".." → (kept ++ [part]).head? = some "..") :
    Cleaned (kept ++ [part]) := by
  refine ⟨fun other inside => ?_, fun other inside => ?_, fun head inside => ?_⟩
  · rcases List.mem_append.mp inside with old | new
    · exact cleaned.noSlash other old
    · exact List.mem_singleton.mp new ▸ noSlash
  · rcases List.mem_append.mp inside with old | new
    · exact cleaned.filled other old
    · exact List.mem_singleton.mp new ▸ filled
  · rcases List.mem_append.mp inside with old | new
    · refine cleaned.front (fun first => head ?_) old
      rw [List.head?_append, first, Option.some_or]
    · exact head (front (List.mem_singleton.mp new).symm)

theorem cleaned_step {kept : Path} (part : String) (cleaned : Cleaned kept) (noSlash : '/' ∉ part.toList) :
    Cleaned (cleanStep false kept part) := by
  have step := cleanStep_cases kept part
  generalize cleanStep false kept part = next at step ⊢
  cases step with
  | skip _ empty => exact cleaned
  | up above =>
    refine cleaned_append cleaned noSlash (by decide) fun _ => ?_
    -- The last component kept is a parent reference, so the first one is.
    cases last : kept.getLast? with
    | none => simp [List.getLast?_eq_none_iff.mp last]
    | some found =>
      obtain rfl : found = ".." := by simpa [last] using above
      have inside := List.mem_of_getLast? last
      have head : kept.head? = some ".." := by
        by_contra other
        exact cleaned.front other inside
      rw [List.head?_append, head, Option.some_or]
  | back last found below =>
    refine ⟨fun other inside => cleaned.noSlash other (List.dropLast_subset _ inside),
      fun other inside => cleaned.filled other (List.dropLast_subset _ inside), fun front inside => ?_⟩
    have head : kept.dropLast.head? = kept.head? := by
      cases kept with
      | nil => rfl
      | cons first rest => cases rest <;> simp_all
    exact cleaned.front (head ▸ front) (List.dropLast_subset _ inside)
  | down _ ordinary =>
    exact cleaned_append cleaned noSlash ⟨ordinary.1, ordinary.2.1⟩
      fun isUp => absurd isUp ordinary.2.2

theorem cleaned_foldl (path kept : Path) (cleaned : Cleaned kept)
    (noSlash : ∀ part ∈ path, '/' ∉ part.toList) : Cleaned (path.foldl (cleanStep false) kept) := by
  induction path generalizing kept with
  | nil => exact cleaned
  | cons part rest ih =>
    exact ih _ (cleaned_step part cleaned (noSlash part (by simp)))
      fun other inside => noSlash other (by simp [inside])

theorem cleaned_clean (relative : isAbs name = false) : Cleaned (clean name) := by
  rw [clean, if_neg (by simp [relative])]
  exact cleaned_foldl _ [] ⟨by simp, by simp, by simp⟩ fun part => parts_noSlash name part

theorem pathText_eq (nonempty : path ≠ []) (cleaned : Cleaned path) :
    (pathText path).toList = ['/'].intercalate (path.map String.toList) := by
  unfold pathText
  split
  · exact absurd rfl nonempty
  · exact absurd rfl (cleaned.filled "" (by simp)).1
  · exact String.toList_ofList

theorem parts_pathText (nonempty : path ≠ []) (cleaned : Cleaned path) :
    parts (pathText path) = path := by
  have back : (['/'].intercalate (path.map String.toList)).splitOn '/' = path.map String.toList :=
    List.splitOn_intercalate '/' (by simpa using cleaned.noSlash) (by simpa using nonempty)
  rw [parts, pathText_eq nonempty cleaned, back]
  simp [Function.comp_def]

theorem pathText_head (cleaned : Cleaned (first :: rest)) :
    ∃ more, (pathText (first :: rest)).toList = first.toList ++ more := by
  rw [pathText_eq (by simp) cleaned]
  cases rest with
  | nil => exact ⟨[], by simp [List.intercalate]⟩
  | cons second later =>
    exact ⟨'/' :: ['/'].intercalate ((second :: later).map String.toList), by simp [List.intercalate]⟩

theorem sanitizePath_some (accepted : sanitizePath p = some safe) :
    (clean p = [] ∧ safe = ".") ∨ (clean p ≠ [] ∧ parts safe = clean p ∧ Plain safe) := by
  unfold sanitizePath at accepted
  dsimp only at accepted
  split_ifs at accepted with refused
  obtain rfl := Option.some.inj accepted
  rw [Bool.or_eq_true, not_or] at refused
  obtain ⟨relative, noUp⟩ := refused
  have unrooted : isAbs p = false := by
    by_contra rooted
    refine relative ?_
    rw [clean, if_pos (by simpa using rooted)]
    unfold pathText
    split
    · contradiction
    · decide
    · simp only [isAbs]
      cases path : (parts p).foldl (cleanStep true) [] with
      | nil => simp_all
      | cons first rest => simp [List.intercalate]
  have cleaned := cleaned_clean unrooted
  cases path : clean p with
  | nil => exact .inl ⟨rfl, rfl⟩
  | cons first rest =>
    rw [path] at cleaned noUp
    have same := parts_pathText (by simp) cleaned
    refine .inr ⟨by simp, same, ?_⟩
    have front : first ≠ ".." := by
      rintro rfl
      obtain ⟨more, text⟩ := pathText_head cleaned
      exact noUp (by simp [hasPrefix, text])
    intro part inside
    rw [same] at inside
    refine ⟨(cleaned.filled part inside).1, (cleaned.filled part inside).2, ?_⟩
    rintro rfl
    exact cleaned.front (by simpa using front) inside

theorem parts_single (noSlash : '/' ∉ name.toList) : parts name = [name] := by
  rw [parts, List.splitOn_eq_singleton noSlash, List.map_singleton, String.ofList_toList]

theorem parts_split (name : String) (left right : Path) (split : parts name = left ++ right)
    (leftFilled : left ≠ []) (rightFilled : right ≠ []) :
    ∃ front back, name = front ++ "/" ++ back ∧ parts front = left ∧ parts back = right := by
  have text (path : Path) (nonempty : path ≠ []) (within : ∀ part ∈ path, part ∈ parts name) :
      parts (String.ofList (['/'].intercalate (path.map String.toList))) = path := by
    have noSlash : ∀ chars ∈ path.map String.toList, '/' ∉ chars := by
      intro chars member
      obtain ⟨part, inside, rfl⟩ := List.mem_map.mp member
      exact parts_noSlash name part (within part inside)
    rw [parts, String.toList_ofList, List.splitOn_intercalate '/' noSlash (by simpa using nonempty)]
    simp [Function.comp_def]
  have front := text left leftFilled fun part inside => by simp [split, inside]
  have back := text right rightFilled fun part inside => by simp [split, inside]
  refine ⟨_, _, parts_injective ?_, front, back⟩
  rw [parts_slash, front, back, split]

def trimLeft (name : String) : String := String.ofList (name.toList.dropWhile isSpace)

def trimRight (name : String) : String := String.ofList (name.toList.reverse.dropWhile isSpace).reverse

theorem trimSpace_eq (name : String) : trimSpace name = trimRight (trimLeft name) := by
  simp [trimSpace, trimRight, trimLeft]

theorem trimLeft_noSlash (noSlash : '/' ∉ name.toList) : '/' ∉ (trimLeft name).toList := by
  rw [trimLeft, String.toList_ofList]
  exact fun inside => noSlash (List.dropWhile_subset _ inside)

theorem trimRight_noSlash (noSlash : '/' ∉ name.toList) : '/' ∉ (trimRight name).toList := by
  rw [trimRight, String.toList_ofList, List.mem_reverse]
  exact fun inside => noSlash (List.mem_reverse.mp (List.dropWhile_subset _ inside))

-- A slash stops the trimming, so only the outermost component changes.
theorem dropWhile_slash (chars rest : List Char) :
    (chars ++ '/' :: rest).dropWhile isSpace = chars.dropWhile isSpace ++ '/' :: rest := by
  have stops : isSpace '/' = false := by decide
  induction chars with
  | nil => simp [stops]
  | cons first later ih =>
    by_cases space : isSpace first = true
    · simp [space, ih]
    · simp [space]

theorem parts_trimLeft (split : parts name = first :: rest)
    (more : rest ≠ []) : parts (trimLeft name) = trimLeft first :: rest := by
  have noSlash := parts_noSlash name first (by simp [split])
  obtain ⟨front, back, rfl, head, tail⟩ := parts_split name [first] rest split (by simp) more
  obtain rfl : front = first := parts_injective (head.trans (parts_single noSlash).symm)
  have trimmed : trimLeft (front ++ "/" ++ back) = trimLeft front ++ "/" ++ back := by
    apply String.toList_injective
    simp [trimLeft, dropWhile_slash]
  rw [trimmed, parts_slash, parts_single (trimLeft_noSlash noSlash), tail, List.singleton_append]

theorem parts_trimRight (name last : String) (rest : Path) (split : parts name = rest ++ [last])
    (more : rest ≠ []) : parts (trimRight name) = rest ++ [trimRight last] := by
  have noSlash := parts_noSlash name last (by simp [split])
  obtain ⟨front, back, rfl, head, tail⟩ := parts_split name rest [last] split more (by simp)
  obtain rfl : back = last := parts_injective (tail.trans (parts_single noSlash).symm)
  have trimmed : trimRight (front ++ "/" ++ back) = front ++ "/" ++ trimRight back := by
    apply String.toList_injective
    simp [trimRight, dropWhile_slash]
  rw [trimmed, parts_slash, parts_single (trimRight_noSlash noSlash), head]

theorem isAbs_parts (name : String) : isAbs name = true ↔ ∃ rest, rest ≠ [] ∧ parts name = "" :: rest := by
  constructor
  · intro rooted
    cases chars : name.toList with
    | nil => simp [isAbs, chars] at rooted
    | cons first later =>
      obtain rfl : first = '/' := by simpa [isAbs, chars] using rooted
      have text : name = "" ++ "/" ++ String.ofList later := by
        apply String.toList_injective
        simp [chars]
      exact ⟨parts (String.ofList later), parts_nonempty _, by rw [text, parts_slash]; rfl⟩
  · rintro ⟨rest, more, split⟩
    obtain ⟨front, back, rfl, head, _⟩ := parts_split name [""] rest split (by simp) more
    obtain rfl : front = "" := parts_injective head
    simp [isAbs]

theorem trimSlash_relative (name : String) (relative : isAbs name = false) : trimSlash name = name := by
  unfold trimSlash
  split
  case h_1 rest text => simp [isAbs, text] at relative
  case h_2 => rfl

theorem parts_trimSlash (split : parts name = first :: rest) :
    parts (trimSlash name) = if first = "" ∧ rest ≠ [] then rest else first :: rest := by
  split_ifs with rooted
  · obtain ⟨rfl, more⟩ := rooted
    obtain ⟨front, back, rfl, head, tail⟩ := parts_split name [""] rest split (by simp) more
    obtain rfl : front = "" := parts_injective head
    have trimmed : trimSlash ("" ++ "/" ++ back) = back := by simp [trimSlash]
    rw [trimmed, tail]
  · have relative : isAbs name ≠ true := by
      intro abs
      obtain ⟨later, more, same⟩ := (isAbs_parts name).mp abs
      rw [split, List.cons.injEq] at same
      exact rooted ⟨same.1, same.2 ▸ more⟩
    rw [trimSlash_relative name (by simpa using relative), split]

theorem cleanStep_below (rooted : Bool) (kept : Path) (free : ".." ∉ cleanStep false path part) :
    cleanStep rooted (kept ++ path) part = kept ++ cleanStep false path part ∧ ".." ∉ path := by
  have step := cleanStep_cases path part
  generalize cleanStep false path part = next at step free ⊢
  cases step with
  | skip _ empty => exact ⟨by rw [cleanStep, if_pos empty], free⟩
  | up above => simp at free
  | back last found below =>
    have filled : path ≠ [] := by rintro rfl; simp at found
    have same : (kept ++ path).getLast? = some last := by
      rw [List.getLast?_append_of_ne_nil _ filled, found]
    refine ⟨?_, fun inside => ?_⟩
    · simp [cleanStep, same, below, List.dropLast_append_of_ne_nil filled]
    · rw [← List.dropLast_append_getLast? last found, List.mem_append, List.mem_singleton] at inside
      exact inside.elim free fun same => below same.symm
  | down _ ordinary =>
    refine ⟨by rw [cleanStep_ordinary rooted _ _ ordinary, List.append_assoc], ?_⟩
    exact fun inside => free (List.mem_append_left _ inside)

theorem foldl_below (rooted : Bool) (kept path : Path) (free : ".." ∉ path.foldl (cleanStep false) []) :
    path.foldl (cleanStep rooted) kept = kept ++ path.foldl (cleanStep false) [] := by
  induction path using List.reverseRecOn with
  | nil => simp
  | append_singleton front part ih =>
    rw [List.foldl_append, List.foldl_cons, List.foldl_nil] at free ⊢
    rw [List.foldl_append, List.foldl_cons, List.foldl_nil]
    obtain ⟨same, before⟩ := cleanStep_below rooted kept free
    rw [ih before, same]

theorem clean_relative (relative : isAbs name = false) :
    clean name = (parts name).foldl (cleanStep false) [] := by
  rw [clean, if_neg (by simp [relative])]

theorem pathText_plain (plain : Plain name) : pathText (clean name) = name := by
  have relative := plain_not_abs plain
  have kept : clean name = parts name := by
    rw [clean_relative relative, foldl_ordinary false [] _ plain, List.nil_append]
  have whole := parts_pathText (by rw [kept]; exact parts_nonempty name) (cleaned_clean relative)
  exact parts_injective (whole.trans kept)

theorem join_below (rootDir : String) (relative : isAbs name = false) (free : ".." ∉ clean name) :
    join rootDir name = clean rootDir ++ clean name := by
  have unrooted := clean_relative relative
  rw [unrooted] at free ⊢
  unfold join
  split_ifs with empty
  · subst empty
    rw [show clean "" = [] by decide, List.nil_append, unrooted]
  · have same : isAbs (rootDir ++ "/" ++ name) = isAbs rootDir := by
      have filled : rootDir.toList ≠ [] := by simpa using empty
      obtain ⟨first, rest, text⟩ := List.exists_cons_of_ne_nil filled
      simp [isAbs, text]
    rw [clean, clean, same, parts_slash, List.foldl_append, List.foldl_append]
    split_ifs
    · rw [foldl_below true _ _ free, List.cons_append]
    · rw [foldl_below false _ _ free]

-- The cleaned names that turn into a way out of the directory when blanks are trimmed off their ends: a parent
-- reference with blanks before it comes first, or one with blanks behind it comes second and nothing is left of the
-- component before it.
def escaping : Path → Bool
  | [] => false
  | [only] => trimSpace only = ".."
  | [first, last] =>
      trimLeft first = ".." || (trimLeft first = "" || trimLeft first = ".") && trimRight last = ".."
  | first :: _ => trimLeft first = ".."

theorem up_mem_cleanStep (kept : Path) (part : String) :
    ".." ∈ cleanStep false kept part ↔ ".." ∈ kept ∨ part = ".." ∧ kept = [] := by
  have step := cleanStep_cases kept part
  generalize cleanStep false kept part = next at step ⊢
  cases step with
  | skip _ empty =>
    have other : part ≠ ".." := by rintro rfl; simp at empty
    simp [other]
  | up above =>
    cases last : kept.getLast? with
    | none => simp [List.getLast?_eq_none_iff.mp last]
    | some found =>
      obtain rfl : found = ".." := by simpa [last] using above
      simp [List.mem_of_getLast? last]
  | back last found below =>
    have filled : kept ≠ [] := by rintro rfl; simp at found
    have split : ".." ∈ kept ↔ ".." ∈ kept.dropLast := by
      conv_lhs => rw [← List.dropLast_append_getLast? last found]
      simp [Ne.symm below]
    simp [filled, split]
  | down _ ordinary => simp [ordinary.2.2, Ne.symm ordinary.2.2]

theorem cleanStep_nil (part : String) : cleanStep false [] part = [] ↔ part = "" ∨ part = "." := by
  have step := cleanStep_cases [] part
  generalize cleanStep false [] part = next at step ⊢
  cases step with
  | skip _ empty => simp [empty]
  | up above => simp
  | back last found below => simp at found
  | down _ ordinary => simp [ordinary.1, ordinary.2.1]

theorem up_mem_trimmed (first last : String) (ordinary : ∀ part ∈ middle, Ordinary part) :
    ".." ∈ (first :: (middle ++ [last])).foldl (cleanStep false) [] ↔
      first = ".." ∨ middle = [] ∧ (first = "" ∨ first = ".") ∧ last = ".." := by
  have noUp : ".." ∉ middle := fun inside => (ordinary _ inside).2.2 rfl
  rw [List.foldl_cons, List.foldl_append, foldl_ordinary false _ middle ordinary, List.foldl_cons, List.foldl_nil,
    up_mem_cleanStep, List.mem_append, up_mem_cleanStep, List.append_eq_nil_iff, cleanStep_nil]
  simp only [List.not_mem_nil, noUp, false_or, or_false]
  tauto

theorem isAbs_single (noSlash : '/' ∉ name.toList) : isAbs name = false := by
  by_contra rooted
  obtain ⟨rest, more, split⟩ := (isAbs_parts name).mp (by simpa using rooted)
  rw [parts_single noSlash, List.cons.injEq] at split
  exact more split.2.symm

theorem trimSpace_noSlash (name : String) (noSlash : '/' ∉ name.toList) : '/' ∉ (trimSpace name).toList := by
  rw [trimSpace_eq]
  exact trimRight_noSlash (trimLeft_noSlash noSlash)

theorem parts_cases (name : String) : ('/' ∉ name.toList ∧ parts name = [name]) ∨
    ∃ first middle last, parts name = first :: (middle ++ [last]) := by
  obtain ⟨first, rest, whole⟩ := List.exists_cons_of_ne_nil (parts_nonempty name)
  cases rest using List.reverseRecOn with
  | nil =>
    have noSlash := parts_noSlash name first (by simp [whole])
    obtain rfl : name = first := parts_injective (whole.trans (parts_single noSlash).symm)
    exact .inl ⟨noSlash, whole⟩
  | append_singleton middle last => exact .inr ⟨first, middle, last, whole⟩

theorem parts_normalized_single {only : String} (noSlash : '/' ∉ only.toList) :
    parts (trimSlash (trimSpace only)) = [trimSpace only] ∧ isAbs (trimSlash (trimSpace only)) = false := by
  have trimmed := trimSpace_noSlash only noSlash
  have relative := isAbs_single trimmed
  rw [trimSlash_relative _ relative]
  exact ⟨parts_single trimmed, relative⟩

theorem parts_trimSpace (split : parts name = first :: (middle ++ [last])) :
    parts (trimSpace name) = trimLeft first :: (middle ++ [trimRight last]) := by
  have left := parts_trimLeft split (by simp)
  have both := parts_trimRight (trimLeft name) last (trimLeft first :: middle) left (by simp)
  rw [trimSpace_eq, both, List.cons_append]

theorem parts_normalized (split : parts name = first :: (middle ++ [last])) :
    parts (trimSlash (trimSpace name)) =
      if trimLeft first = "" then middle ++ [trimRight last]
      else trimLeft first :: (middle ++ [trimRight last]) := by
  rw [parts_trimSlash (parts_trimSpace split)]
  simp

theorem up_mem_normalized (normalized : normalize p = some safe) :
    isAbs safe = false ∧ (".." ∈ clean safe ↔ escaping (clean p) = true) := by
  obtain ⟨accepted, sanitized, rfl⟩ := Option.map_eq_some_iff.mp normalized
  rcases sanitizePath_some sanitized with ⟨nothing, rfl⟩ | ⟨filled, split, plain⟩
  · rw [nothing]
    decide
  · rw [← split]
    rcases parts_cases accepted with ⟨noSlash, whole⟩ | ⟨first, middle, last, whole⟩
    · obtain ⟨components, relative⟩ := parts_normalized_single noSlash
      refine ⟨relative, ?_⟩
      rw [clean_relative relative, components, whole, List.foldl_cons, List.foldl_nil, up_mem_cleanStep]
      simp [escaping]
    · have components := parts_normalized whole
      have inner : ∀ part ∈ middle, Ordinary part := fun part inside => plain part (by simp [whole, inside])
      have relative : isAbs (trimSlash (trimSpace accepted)) = false := by
        by_contra rooted
        obtain ⟨rest, more, same⟩ := (isAbs_parts _).mp (by simpa using rooted)
        rw [components] at same
        split_ifs at same with blank
        · cases middle with
          | nil => simp_all
          | cons second later =>
            rw [List.cons_append, List.cons.injEq] at same
            exact (inner second (by simp)).1 same.1
        · exact blank (List.cons.inj same).1
      have escapes : escaping (first :: (middle ++ [last])) = true ↔
          trimLeft first = ".." ∨
            middle = [] ∧ (trimLeft first = "" ∨ trimLeft first = ".") ∧ trimRight last = ".." := by
        cases middle with
        | nil => simp [escaping]
        | cons second later => cases later <;> simp [escaping]
      refine ⟨relative, ?_⟩
      rw [clean_relative relative, components, whole, escapes, ← up_mem_trimmed _ _ inner]
      split_ifs with blank
      · simp [blank, cleanStep]
      · rfl

def Contained (rootDir : String) (path : Path) : Prop :=
  ∃ below, path = clean rootDir ++ below ∧ ".." ∉ below

theorem accepted_path_contained_iff (p safe : String) (normalized : normalize p = some safe) :
    (∀ s : Server, Contained s.rootDir (s.path safe)) ↔ escaping (clean p) = false := by
  obtain ⟨relative, escapes⟩ := up_mem_normalized normalized
  rw [← Bool.not_eq_true, ← escapes]
  constructor
  · intro contained inside
    obtain ⟨below, same, free⟩ := contained (newServer "" "" ∅ .empty [])
    have here : join "" safe = clean safe := by simp [join]
    have top : clean "" = [] := by decide
    change join "" safe = clean "" ++ below at same
    rw [here, top, List.nil_append] at same
    exact free (same ▸ inside)
  · intro free s
    exact ⟨clean safe, join_below s.rootDir relative free, free⟩

theorem plain_name_contained :
    normalize "a/../output//x.txt" = some "output/x.txt" ∧
      ((∀ s : Server, Contained s.rootDir (s.path "output/x.txt")) ↔
        escaping (clean "a/../output//x.txt") = false) ∧
      escaping (clean "a/../output//x.txt") = false :=
  ⟨by decide, accepted_path_contained_iff _ _ (by decide), by decide⟩

-- The check sees a component that starts with a blank; the trimming makes a parent reference of it.
theorem blank_before_parent_escapes :
    normalize " ../log_1.txt" = some "../log_1.txt" ∧
      (newServer "1" "storage" ∅ .empty []).path "../log_1.txt" = ["log_1.txt"] ∧
      ¬ Contained "storage" ["log_1.txt"] := by
  refine ⟨by decide, by decide, ?_⟩
  rintro ⟨below, same, _⟩
  rw [show clean "storage" = ["storage"] by decide, List.cons_append, List.nil_append, List.cons.injEq] at same
  exact absurd same.1 (by decide)

end Ikkat
