import Mathlib.Data.List.Basic

set_option autoImplicit false

namespace Ikkat

-- A path is its list of components; a rooted one starts with the empty component.
abbrev Path := List String

def parts (name : String) : List String :=
  (name.toList.splitOn '/').map String.ofList

def isAbs (name : String) : Bool :=
  name.toList.head? == some '/'

def hasPrefix (start name : String) : Bool :=
  start.toList.isPrefixOf name.toList

def hasSuffix (suffix name : String) : Bool :=
  suffix.toList.reverse.isPrefixOf name.toList.reverse

def cleanStep (rooted : Bool) (kept : Path) (part : String) : Path :=
  if part = "" ∨ part = "." then kept
  else if part = ".." then
    match kept.getLast? with
    | none => if rooted then kept else [".."]
    | some last => if last = ".." then kept ++ [".."] else kept.dropLast
  else kept ++ [part]

def clean (name : String) : Path :=
  if isAbs name then "" :: (parts name).foldl (cleanStep true) []
  else (parts name).foldl (cleanStep false) []

def pathText (path : Path) : String :=
  match path with
  | [] => "."
  | [""] => "/"
  | _ => String.ofList (['/'].intercalate (path.map String.toList))

def join (root name : String) : Path :=
  if root = "" then clean name else clean (root ++ "/" ++ name)

def isSpace (c : Char) : Bool :=
  c.toNat ∈ [9, 10, 11, 12, 13, 32, 0x85, 0xA0, 0x1680, 0x2000, 0x2001, 0x2002, 0x2003, 0x2004, 0x2005,
    0x2006, 0x2007, 0x2008, 0x2009, 0x200A, 0x2028, 0x2029, 0x202F, 0x205F, 0x3000]

def trimSpace (name : String) : String :=
  String.ofList ((name.toList.dropWhile isSpace).reverse.dropWhile isSpace).reverse

def trimSlash (name : String) : String :=
  match name.toList with
  | '/' :: rest => String.ofList rest
  | _ => name

def sanitizePath (p : String) : Option String :=
  let safe := pathText (clean p)
  if isAbs safe || hasPrefix ".." safe then none else some safe

-- What the handlers do to a name; filepath.ToSlash changes nothing on Unix.
def normalize (filename : String) : Option String :=
  (sanitizePath filename).map fun safe => trimSlash (trimSpace safe)

-- Close and Write drop the error of sanitizePath and go on with the empty string.
def normalizeQuiet (filename : String) : String :=
  trimSlash (trimSpace ((sanitizePath filename).getD ""))

def withSuffix (path : Path) (suffix : String) : Path :=
  match path with
  | [] => ["." ++ suffix]
  | _ => path.dropLast ++ [path.getLast?.getD "" ++ suffix]

example : pathText (clean "a//b/./../c/") = "a/c" := by decide

example : normalize " /output/x.txt " = some "output/x.txt" := by decide

def Ordinary (part : String) : Prop := part ≠ "" ∧ part ≠ "." ∧ part ≠ ".."

def Plain (name : String) : Prop := ∀ part ∈ parts name, Ordinary part

instance (name : String) : Decidable (Plain name) :=
  inferInstanceAs (Decidable (∀ part ∈ parts name, part ≠ "" ∧ part ≠ "." ∧ part ≠ ".."))

theorem parts_nonempty (name : String) : parts name ≠ [] := by
  simp [parts]

variable {left right name : String}

theorem parts_injective (same : parts left = parts right) : left = right := by
  have text (name : String) : ['/'].intercalate ((parts name).map String.toList) = name.toList := by
    simp [parts]
  exact String.toList_injective (by rw [← text left, ← text right, same])

theorem parts_slash (root name : String) : parts (root ++ "/" ++ name) = parts root ++ parts name := by
  have text : (root ++ "/" ++ name).toList = root.toList ++ '/' :: name.toList := by simp
  rw [parts, text, List.splitOn_append_cons_self, List.map_append, parts, parts]

theorem cleanStep_ordinary (rooted : Bool) (kept : Path) (part : String) (ordinary : Ordinary part) :
    cleanStep rooted kept part = kept ++ [part] := by
  obtain ⟨filled, notDot, notUp⟩ := ordinary
  simp [cleanStep, filled, notDot, notUp]

theorem foldl_ordinary (rooted : Bool) (kept path : Path) (ordinary : ∀ part ∈ path, Ordinary part) :
    path.foldl (cleanStep rooted) kept = kept ++ path := by
  induction path generalizing kept with
  | nil => simp
  | cons part rest ih =>
    rw [List.foldl_cons, cleanStep_ordinary rooted kept part (ordinary part (by simp)),
      ih _ fun other member => ordinary other (by simp [member])]
    simp

theorem plain_not_abs (plain : Plain name) : isAbs name = false := by
  by_contra rooted
  obtain ⟨rest, text⟩ : ∃ rest, name.toList = '/' :: rest := by
    cases chars : name.toList with
    | nil => simp [isAbs, chars] at rooted
    | cons first rest => exact ⟨rest, by simp_all [isAbs]⟩
  have empty : "" ∈ parts name := by
    simp [parts, text, List.splitOn_cons_eq_if_modifyHead]
  exact (plain "" empty).1 rfl

theorem join_plain (root name : String) (plain : Plain name) : join root name = clean root ++ parts name := by
  unfold join
  split_ifs with empty
  · subst empty
    have unrooted := plain_not_abs plain
    have front : clean "" = [] := by decide
    rw [front, clean, if_neg (by simp [unrooted]), foldl_ordinary false [] _ plain]
  · have rooted : isAbs (root ++ "/" ++ name) = isAbs root := by
      have filled : root.toList ≠ [] := by simpa using empty
      obtain ⟨first, rest, text⟩ := List.exists_cons_of_ne_nil filled
      simp [isAbs, text]
    unfold clean
    rw [rooted, parts_slash, List.foldl_append, List.foldl_append]
    split_ifs
    · rw [foldl_ordinary true _ _ plain, List.cons_append]
    · rw [foldl_ordinary false _ _ plain]

theorem join_injective {root : String} (leftPlain : Plain left) (rightPlain : Plain right)
    (same : join root left = join root right) : left = right := by
  rw [join_plain root left leftPlain, join_plain root right rightPlain] at same
  exact parts_injective (List.append_cancel_left same)

theorem splitOn_suffix (chars : List Char) {suffix : List Char} (noSlash : '/' ∉ suffix) :
    (chars ++ suffix).splitOn '/' =
      (chars.splitOn '/').dropLast ++ [((chars.splitOn '/').getLast?).getD [] ++ suffix] := by
  induction chars with
  | nil => simp [List.splitOn_eq_singleton noSlash]
  | cons first rest ih =>
    obtain ⟨head, tail, split⟩ := List.exists_cons_of_ne_nil (List.splitOn_ne_nil '/' rest)
    rw [List.cons_append, List.splitOn_cons_eq_if_modifyHead, List.splitOn_cons_eq_if_modifyHead, ih,
      split]
    by_cases slash : first = '/'
    · cases tail <;> simp [slash]
    · cases tail <;> simp [slash]

theorem parts_suffix (name suffix : String) (noSlash : '/' ∉ suffix.toList) :
    parts (name ++ suffix) = (parts name).dropLast ++ [(parts name).getLast?.getD "" ++ suffix] := by
  have last (words : List (List Char)) :
      String.ofList (words.getLast?.getD [] ++ suffix.toList) =
        (words.map String.ofList).getLast?.getD "" ++ suffix := by
    cases found : words.getLast? <;> simp [found]
  have text : (name ++ suffix).toList = name.toList ++ suffix.toList := by simp
  rw [parts, text, splitOn_suffix _ noSlash, List.map_append, List.map_singleton, last, parts,
    List.map_dropLast]

theorem plain_suffix (suffix : String) (plain : Plain name) (noSlash : '/' ∉ suffix.toList)
    (long : 2 < suffix.toList.length) : Plain (name ++ suffix) := by
  intro part member
  rw [parts_suffix name suffix noSlash, List.mem_append, List.mem_singleton] at member
  rcases member with front | rfl
  · exact plain part (List.dropLast_subset _ front)
  · have size (short : String) (few : short.toList.length ≤ 2)
        (same : (parts name).getLast?.getD "" ++ suffix = short) : False := by
      have lengths := congrArg (fun text => text.toList.length) same
      simp only [String.toList_append, List.length_append] at lengths
      omega
    exact ⟨fun same => size "" (by decide) same, fun same => size "." (by decide) same,
      fun same => size ".." (by decide) same⟩

theorem withSuffix_append (front path : Path) (suffix : String) (nonempty : path ≠ []) :
    withSuffix (front ++ path) suffix =
      front ++ (path.dropLast ++ [path.getLast?.getD "" ++ suffix]) := by
  have filled : front ++ path ≠ [] := by simp [nonempty]
  obtain ⟨first, rest, split⟩ := List.exists_cons_of_ne_nil filled
  have last : (front ++ path).getLast? = path.getLast? := by
    simp [List.getLast?_append_of_ne_nil _ nonempty]
  rw [withSuffix.eq_def, split]
  dsimp only
  rw [← split, last, List.dropLast_append_of_ne_nil nonempty, List.append_assoc]

theorem join_suffix (root name suffix : String) (plain : Plain name) (noSlash : '/' ∉ suffix.toList)
    (long : 2 < suffix.toList.length) :
    join root (name ++ suffix) = withSuffix (join root name) suffix := by
  rw [join_plain _ _ (plain_suffix suffix plain noSlash long), join_plain _ _ plain,
    parts_suffix name suffix noSlash, withSuffix_append _ _ _ (parts_nonempty name)]

end Ikkat
