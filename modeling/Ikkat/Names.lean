import Ikkat.Union
import Mathlib.Data.List.DropRight

set_option autoImplicit false

namespace Ikkat

variable {name : String}

theorem cleanStep_eq_append {rooted : Bool} {kept : Path} {part other : String}
    (same : cleanStep rooted kept part = kept ++ [other]) : part = other := by
  have shorter (path : Path) (few : path.length ≤ kept.length) : path ≠ kept ++ [other] := by
    rintro rfl
    rw [List.length_append, List.length_singleton] at few
    omega
  unfold cleanStep at same
  split at same
  case isTrue => exact absurd same (shorter kept (Nat.le_refl _))
  case isFalse =>
    split at same
    case isFalse => exact (List.cons.inj (List.append_cancel_left same)).1
    case isTrue up =>
      split at same
      case h_1 none =>
        obtain rfl := List.getLast?_eq_none_iff.mp none
        split_ifs at same
        · cases same
        · exact up.trans (List.cons.inj same).1
      case h_2 last _ =>
        split_ifs at same
        · exact up.trans (List.cons.inj (List.append_cancel_left same)).1
        · exact absurd same (shorter kept.dropLast (by simp))

theorem join_parts (root name : String) {suffix : String} (noSlash : '/' ∉ suffix.toList) :
    ∃ front kept rooted, join root name = front ++ (parts name).foldl (cleanStep rooted) kept ∧
      join root (name ++ suffix) = front ++ (parts (name ++ suffix)).foldl (cleanStep rooted) kept := by
  unfold join
  split_ifs with empty
  · have rooted : isAbs (name ++ suffix) = isAbs name := by
      unfold isAbs
      rw [String.toList_append]
      cases chars : name.toList with
      | cons first rest => rfl
      | nil =>
        cases tail : suffix.toList with
        | nil => rfl
        | cons first rest =>
          have other : first ≠ '/' := by
            rintro rfl
            exact noSlash (by simp [tail])
          simpa using other
    unfold clean
    rw [rooted]
    split_ifs
    · exact ⟨[""], [], true, rfl, rfl⟩
    · exact ⟨[], [], false, rfl, rfl⟩
  · have rooted (tail : String) : isAbs (root ++ "/" ++ tail) = isAbs root := by
      have filled : root.toList ≠ [] := by simpa using empty
      obtain ⟨first, rest, text⟩ := List.exists_cons_of_ne_nil filled
      simp [isAbs, text]
    unfold clean
    simp only [rooted, parts_slash, List.foldl_append]
    split_ifs
    · exact ⟨[""], (parts root).foldl (cleanStep true) [], true, rfl, rfl⟩
    · exact ⟨[], (parts root).foldl (cleanStep false) [], false, rfl, rfl⟩

theorem join_suffix_last (root name suffix : String) (noSlash : '/' ∉ suffix.toList) (long : 2 < suffix.toList.length) :
    ∃ front kept rooted last, join root name = front ++ cleanStep rooted kept last ∧
      join root (name ++ suffix) = front ++ (kept ++ [last ++ suffix]) := by
  obtain ⟨front, kept, rooted, plain, longer⟩ := join_parts root name noSlash
  obtain ⟨before, last, split⟩ := List.eq_nil_or_concat (parts name) |>.resolve_left (parts_nonempty name)
  have ordinary : Ordinary (last ++ suffix) := by
    have size (short : String) (few : short.toList.length ≤ 2) : last ++ suffix ≠ short := by
      rintro rfl
      simp only [String.toList_append, List.length_append] at few
      omega
    exact ⟨size "" (by decide), size "." (by decide), size ".." (by decide)⟩
  rw [parts_suffix name suffix noSlash, split] at longer
  rw [split] at plain
  refine ⟨front, before.foldl (cleanStep rooted) kept, rooted, last, ?_, ?_⟩
  · rw [plain, List.concat_eq_append, List.foldl_append, List.foldl_cons, List.foldl_nil]
  · rw [longer]
    simp [cleanStep_ordinary _ _ _ ordinary]

theorem join_suffix_ne (root name suffix : String) (noSlash : '/' ∉ suffix.toList)
    (long : 2 < suffix.toList.length) : join root (name ++ suffix) ≠ join root name := by
  obtain ⟨front, kept, rooted, last, plain, longer⟩ := join_suffix_last root name suffix noSlash long
  intro same
  rw [longer, plain, List.append_right_inj] at same
  have text := congrArg (fun name => name.toList.length) (cleanStep_eq_append same.symm)
  simp only [String.toList_append, List.length_append] at text
  omega

theorem join_meta_ne_tmp (root name : String) (path : Path) : join root (name ++ ".meta") ≠ withSuffix path ".tmp" := by
  obtain ⟨front, kept, rooted, last, -, longer⟩ := join_suffix_last root name ".meta" (by decide) (by decide)
  have ends (path : Path) : ∃ above other, withSuffix path ".tmp" = above ++ [other ++ ".tmp"] := by
    unfold withSuffix
    split
    · exact ⟨[], ".", rfl⟩
    · exact ⟨_, _, rfl⟩
  obtain ⟨above, other, same⟩ := ends path
  rw [longer, same, ← List.append_assoc]
  intro equal
  have text := congrArg String.toList (List.append_inj_right' equal rfl |> List.cons.inj |>.1)
  have letters := congrArg List.getLast? text
  simp at letters

theorem join_dot (root : String) : join root "." = clean root := by
  unfold join
  split_ifs with empty
  · rw [empty]
    decide
  · have rooted : isAbs (root ++ "/" ++ ".") = isAbs root := by
      have filled : root.toList ≠ [] := by simpa using empty
      obtain ⟨first, rest, text⟩ := List.exists_cons_of_ne_nil filled
      simp [isAbs, text]
    have dot : parts "." = ["."] := by decide
    unfold clean
    simp [rooted, parts_slash, dot, cleanStep]

theorem join_normal_iff (root : String) {left right : String} (normal : normalize left = some left)
    (other : normalize right = some right) : join root left = join root right ↔ left = right := by
  have longer (name : String) (plain : Plain name) : join root name ≠ join root "." := by
    rw [join_dot, join_plain root name plain]
    simpa using parts_nonempty name
  refine ⟨fun same => ?_, fun same => by rw [same]⟩
  by_cases here : left = "."
  · subst here
    by_contra apart
    exact longer right (normal_plain other (Ne.symm apart)) same.symm
  · have plain := normal_plain normal here
    by_cases there : right = "."
    · subst there
      exact absurd same (longer left plain)
    · exact join_injective plain (normal_plain other there) same

theorem trimSpace_sublist (name : String) : (trimSpace name).toList.Sublist name.toList := by
  have right := ((name.toList.dropWhile isSpace).reverse.dropWhile_sublist isSpace).reverse
  rw [List.reverse_reverse] at right
  rw [trimSpace, String.toList_ofList]
  exact right.trans (List.dropWhile_sublist _)

theorem trimSlash_length (name : String) : (trimSlash name).toList.length ≤ name.toList.length := by
  unfold trimSlash
  split
  case h_1 rest text => simp [text]
  case h_2 => exact Nat.le_refl _

theorem normalize_plain_iff (plain : Plain name) :
    normalize name = some name ↔ hasPrefix ".." name = false ∧ trimSpace name = name := by
  have relative := plain_not_abs plain
  unfold normalize sanitizePath
  dsimp only
  rw [pathText_plain plain, relative, Bool.false_or]
  cases up : hasPrefix ".." name with
  | true => simp
  | false =>
    simp only [Bool.false_eq_true, if_false, Option.map_some, Option.some.injEq, true_and]
    constructor
    · intro same
      have lengths := trimSlash_length (trimSpace name)
      rw [same] at lengths
      exact String.toList_injective ((trimSpace_sublist name).eq_of_length_le lengths)
    · intro same
      rw [same, trimSlash_relative name relative]

def trimmedParts : Path → Path
  | [] => ["."]
  | [only] => [trimSpace only]
  | first :: rest =>
      let later := rest.dropLast ++ [trimRight (rest.getLast?.getD "")]
      if trimLeft first = "" then later else trimLeft first :: later

def steady (path : Path) : Bool :=
  path = ["."] || path.all (fun part => part ≠ "" && part ≠ "." && part ≠ "..") &&
    !hasPrefix ".." (path.headD "") && trimLeft (path.headD "") = path.headD ""

theorem trimRight_eq_iff (name : String) :
    trimRight name = name ↔ ∀ filled : name.toList ≠ [], ¬ isSpace (name.toList.getLast filled) := by
  have chars : trimRight name = String.ofList (name.toList.rdropWhile isSpace) := rfl
  rw [chars, ← String.toList_inj, String.toList_ofList]
  exact List.rdropWhile_eq_self_iff

theorem trimRight_normalized (name : String) :
    trimRight (trimSlash (trimSpace name)) = trimSlash (trimSpace name) := by
  have once : trimRight (trimSpace name) = trimSpace name := by
    simp [trimSpace_eq, trimRight, List.dropWhile_idempotent]
  unfold trimSlash
  split
  case h_1 rest text =>
    rw [trimRight_eq_iff] at once ⊢
    intro filled
    rw [String.toList_ofList] at filled
    have last := once (by simp [text])
    simpa [text, List.getLast_cons filled] using last
  case h_2 => exact once

theorem trimSpace_eq_iff (right : trimRight name = name) :
    trimSpace name = name ↔ trimLeft name = name := by
  rw [trimSpace_eq]
  constructor
  · intro same
    have left : (trimLeft name).toList.Sublist name.toList := by
      rw [trimLeft, String.toList_ofList]
      exact List.dropWhile_sublist _
    have back : (trimRight (trimLeft name)).toList.length ≤ (trimLeft name).toList.length := by
      rw [trimRight, String.toList_ofList, List.length_reverse, ← (trimLeft name).toList.length_reverse]
      exact (List.dropWhile_sublist _).length_le
    rw [same] at back
    exact String.toList_injective (left.eq_of_length_le back)
  · intro same
    rw [same, right]

variable {p safe first : String}

theorem parts_of_normalize (normalized : normalize p = some safe) :
    parts safe = trimmedParts (clean p) ∧ trimRight safe = safe := by
  obtain ⟨accepted, sanitized, rfl⟩ := Option.map_eq_some_iff.mp normalized
  refine ⟨?_, trimRight_normalized accepted⟩
  rcases sanitizePath_some sanitized with ⟨nothing, rfl⟩ | ⟨filled, split, plain⟩
  · rw [nothing]
    decide
  · rw [← split]
    rcases parts_cases accepted with ⟨noSlash, whole⟩ | ⟨first, middle, last, whole⟩
    · rw [whole]
      exact (parts_normalized_single noSlash).1
    · have several : ∀ more, more ≠ [] → trimmedParts (first :: more) =
          if trimLeft first = "" then more.dropLast ++ [trimRight (more.getLast?.getD "")]
          else trimLeft first :: (more.dropLast ++ [trimRight (more.getLast?.getD "")]) := by
        intro more nonempty
        cases more with
        | nil => exact absurd rfl nonempty
        | cons second later => rfl
      rw [parts_normalized whole, whole, several _ (by simp), List.dropLast_concat, List.getLast?_concat,
        Option.getD_some]

theorem hasPrefix_up_parts {rest : Path} (split : parts name = first :: rest)
    (filled : first ≠ "") : hasPrefix ".." name = hasPrefix ".." first := by
  cases rest with
  | nil =>
    have noSlash := parts_noSlash name first (by simp [split])
    rw [parts_injective (split.trans (parts_single noSlash).symm)]
  | cons second later =>
    have noSlash := parts_noSlash name first (by simp [split])
    obtain ⟨front, back, rfl, head, _⟩ := parts_split name [first] (second :: later) split (by simp) (by simp)
    obtain rfl : front = first := parts_injective (head.trans (parts_single noSlash).symm)
    have dots : "..".toList = ['.', '.'] := by decide
    unfold hasPrefix
    rw [String.toList_append, String.toList_append]
    rcases chars : front.toList with _ | ⟨one, _ | ⟨two, more⟩⟩
    · exact absurd (String.toList_injective (chars.trans rfl)) filled
    · simp [List.isPrefixOf]
    · simp [List.isPrefixOf]

theorem trimLeft_parts_iff {rest : Path} (split : parts name = first :: rest) :
    trimLeft name = name ↔ trimLeft first = first := by
  cases rest with
  | nil =>
    have noSlash := parts_noSlash name first (by simp [split])
    rw [parts_injective (split.trans (parts_single noSlash).symm)]
  | cons second later =>
    have trimmed := parts_trimLeft split (by simp)
    constructor
    · intro same
      rw [same, split] at trimmed
      exact (List.cons.inj trimmed).1.symm
    · intro same
      exact parts_injective (by rw [trimmed, split, same])

theorem normalize_again_iff (normalized : normalize p = some safe) :
    normalize safe = some safe ↔ steady (trimmedParts (clean p)) = true := by
  obtain ⟨split, right⟩ := parts_of_normalize normalized
  rw [← split]
  obtain ⟨first, rest, whole⟩ := List.exists_cons_of_ne_nil (parts_nonempty safe)
  by_cases dot : safe = "."
  · subst dot
    decide
  · have several : parts safe ≠ ["."] := fun same => dot (parts_injective (same.trans (by decide)))
    have ordinary : ((parts safe).all fun part => part ≠ "" && part ≠ "." && part ≠ "..") = true ↔ Plain safe := by
      simp [Plain, Ordinary, and_assoc]
    rw [steady, whole, List.headD_cons, ← whole, Bool.or_eq_true, Bool.and_eq_true, Bool.and_eq_true, ordinary,
      decide_eq_true_iff, decide_eq_true_iff, or_iff_right several, Bool.not_eq_true', and_assoc,
      ← trimLeft_parts_iff whole, ← trimSpace_eq_iff right]
    constructor
    · intro normal
      have plain := normal_plain normal dot
      obtain ⟨noUp, still⟩ := (normalize_plain_iff plain).mp normal
      rw [hasPrefix_up_parts whole (plain first (by simp [whole])).1] at noUp
      exact ⟨plain, noUp, still⟩
    · rintro ⟨plain, noUp, still⟩
      rw [← hasPrefix_up_parts whole (plain first (by simp [whole])).1] at noUp
      exact (normalize_plain_iff plain).mpr ⟨noUp, still⟩

theorem normalised_names_canonical_iff (root p q safe other : String) (normalized : normalize p = some safe)
    (also : normalize q = some other) :
    ((join root safe = join root other ↔ safe = other) ∧ normalize safe = some safe ∧ normalize other = some other) ↔
      steady (trimmedParts (clean p)) = true ∧ steady (trimmedParts (clean q)) = true := by
  rw [← normalize_again_iff normalized, ← normalize_again_iff also]
  exact ⟨fun holds => holds.2, fun both => ⟨join_normal_iff root both.1 both.2, both⟩⟩

theorem blanks_around_names_trimmed :
    (join "storage" "output/x" = join "storage" "output/y" ↔ "output/x" = "output/y") ∧
      normalize "output/x" = some "output/x" ∧ normalize "output/y" = some "output/y" :=
  (normalised_names_canonical_iff "storage" " output//x " " /output/y" "output/x" "output/y" (by decide)
    (by decide)).mpr ⟨by decide, by decide⟩

-- The blank protects the dot from the cleaning, and is trimmed off after it.
theorem trimmed_name_not_canonical :
    normalize "output/x/. " = some "output/x/." ∧ normalize "output/x" = some "output/x" ∧
      join "storage" "output/x/." = join "storage" "output/x" ∧ "output/x/." ≠ "output/x" ∧
      normalize "output/x/." = some "output/x" := by
  decide

end Ikkat
