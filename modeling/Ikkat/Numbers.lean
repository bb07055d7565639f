import Mathlib.Data.List.Dedup
import Mathlib.Data.List.Perm.Basic
import Ikkat.Shared.Words

set_option autoImplicit false

namespace Ikkat

abbrev Bytes := List UInt8

-- The white space of strings.Fields, each rune as its UTF-8 bytes.
def spaces : List Bytes :=
  [[9], [10], [11], [12], [13], [32], [0xC2, 0x85], [0xC2, 0xA0], [0xE1, 0x9A, 0x80],
    [0xE2, 0x80, 0x80], [0xE2, 0x80, 0x81], [0xE2, 0x80, 0x82], [0xE2, 0x80, 0x83],
    [0xE2, 0x80, 0x84], [0xE2, 0x80, 0x85], [0xE2, 0x80, 0x86], [0xE2, 0x80, 0x87],
    [0xE2, 0x80, 0x88], [0xE2, 0x80, 0x89], [0xE2, 0x80, 0x8A], [0xE2, 0x80, 0xA8],
    [0xE2, 0x80, 0xA9], [0xE2, 0x80, 0xAF], [0xE2, 0x81, 0x9F], [0xE3, 0x80, 0x80]]

-- None of these sequences starts inside another rune, so no decoding state is needed.
def spaceWidth (text : Bytes) : Nat :=
  match spaces.find? fun space => space.isPrefixOf text with
  | some space => space.length
  | none => 0

def parseUint (field : Bytes) : Option UInt64 :=
  if field ≠ [] ∧ field.all Words.isDigit ∧ Words.value field < UInt64.size then
    some (UInt64.ofNat (Words.value field))
  else none

def parseNumbers (data : Bytes) : List UInt64 :=
  (Words.fields spaceWidth data).filterMap parseUint

def newline : UInt8 := 10

def renderNumber (number : UInt64) : Bytes :=
  Words.decimal number.toNat

def renderNumbers (numbers : List UInt64) : Bytes :=
  numbers.flatMap fun number => renderNumber number ++ [newline]

theorem spaces_head : ∀ space ∈ spaces, (space.head?.map Words.isDigit) = some false := by
  decide

theorem digit_plain (byte : UInt8) (digit : Words.isDigit byte = true) :
    Words.Plain spaceWidth byte := by
  intro rest
  have missed : (spaces.find? fun space => space.isPrefixOf (byte :: rest)) = none := by
    rw [List.find?_eq_none]
    intro space member starts
    have head := spaces_head space member
    cases space with
    | nil => simp at head
    | cons first tail =>
      have same : first = byte := by simp_all [List.isPrefixOf]
      simp [same, digit] at head
  simp [spaceWidth, missed]

theorem newline_separator : Words.Separator spaceWidth newline := by
  intro rest
  simp [spaceWidth, spaces, newline]

theorem space_before_newline (text rest space : Bytes) (filled : text ≠ []) (member : space ∈ spaces) :
    space.isPrefixOf (text ++ newline :: rest) = space.isPrefixOf text := by
  have short : ∀ space ∈ spaces, newline ∉ space.drop 1 := by decide
  rw [Bool.eq_iff_iff, List.isPrefixOf_iff_prefix, List.isPrefixOf_iff_prefix]
  refine ⟨fun starts => ?_, fun starts => starts.trans (List.prefix_append _ _)⟩
  rcases List.prefix_or_prefix_of_prefix starts (List.prefix_append text _) with inside | ⟨more, rfl⟩
  · exact inside
  · rw [List.prefix_append_right_inj] at starts
    cases more with
    | nil => simp
    | cons head tail =>
      obtain ⟨rfl, _⟩ := List.cons_prefix_cons.mp starts
      obtain ⟨first, later, rfl⟩ := List.exists_cons_of_ne_nil filled
      exact absurd (by simp) (short _ member)

theorem newline_barrier : Words.Barrier spaceWidth newline := by
  intro text rest filled
  have found (rest : Bytes) : (spaces.find? fun space => space.isPrefixOf (text ++ newline :: rest)) =
      spaces.find? fun space => space.isPrefixOf text := by
    have each := fun space member => space_before_newline text rest space filled member
    generalize spaces = candidates at each ⊢
    induction candidates with
    | nil => rfl
    | cons space others ih =>
      rw [List.find?_cons, List.find?_cons, each space (by simp), ih fun other member => each other (by simp [member])]
  refine ⟨by simp only [spaceWidth, found], ?_⟩
  simp only [spaceWidth, found]
  cases here : spaces.find? fun space => space.isPrefixOf text with
  | none => exact Nat.zero_le _
  | some space =>
    have starts : space.isPrefixOf text = true := by simpa using List.find?_some here
    exact (List.isPrefixOf_iff_prefix.mp starts).length_le

theorem parseNumbers_line (text rest : Bytes) :
    parseNumbers (text ++ newline :: rest) = parseNumbers (text ++ [newline]) ++ parseNumbers rest := by
  rw [parseNumbers, Words.fields_barrier spaceWidth newline_separator newline_barrier, List.filterMap_append]
  rfl

theorem parseUint_renderNumber (number : UInt64) : parseUint (renderNumber number) = some number := by
  have digits : (renderNumber number).all Words.isDigit = true :=
    List.all_eq_true.mpr fun byte member => Words.decimal_isDigit _ _ member
  have bound : number.toNat < UInt64.size := number.toNat_lt_size
  have nonempty : renderNumber number ≠ [] := Words.decimal_nonempty _
  unfold parseUint
  rw [if_pos ⟨nonempty, digits, by simpa [renderNumber] using bound⟩]
  simp [renderNumber]

theorem parseNumbers_render (numbers : List UInt64) (rest : Bytes) :
    parseNumbers (renderNumbers numbers ++ rest) = numbers ++ parseNumbers rest := by
  have lines : renderNumbers numbers =
      (numbers.map renderNumber).flatMap fun word => word ++ [newline] := by
    simp [renderNumbers, List.flatMap_map]
  have words := Words.fields_lines spaceWidth (numbers.map renderNumber) rest
    (by simp [renderNumber, Words.decimal_nonempty])
    (by
      intro word member byte inside
      obtain ⟨number, _, rfl⟩ := List.mem_map.mp member
      exact digit_plain byte (Words.decimal_isDigit _ _ inside))
    newline_separator
  have read : (numbers.map renderNumber).filterMap parseUint = numbers := by
    simp [parseUint_renderNumber]
  rw [parseNumbers, lines, words, List.filterMap_append, read, parseNumbers]

@[simp] theorem parseNumbers_nil : parseNumbers [] = [] := rfl

theorem parseNumbers_renderNumbers (numbers : List UInt64) :
    parseNumbers (renderNumbers numbers) = numbers := by
  simpa using parseNumbers_render numbers []

structure FilePrimeSet where
  elems : List UInt64
  nodup : elems.Nodup
  deriving DecidableEq

namespace FilePrimeSet

instance : Membership UInt64 FilePrimeSet := ⟨fun set number => number ∈ set.elems⟩

instance (number : UInt64) (set : FilePrimeSet) : Decidable (number ∈ set) :=
  inferInstanceAs (Decidable (number ∈ set.elems))

instance : EmptyCollection FilePrimeSet := ⟨⟨[], List.nodup_nil⟩⟩

theorem mem_elems (set : FilePrimeSet) (number : UInt64) : number ∈ set.elems ↔ number ∈ set :=
  Iff.rfl

@[simp] theorem not_mem_empty (number : UInt64) : ¬ number ∈ (∅ : FilePrimeSet) :=
  List.not_mem_nil

def add (set : FilePrimeSet) (number : UInt64) (fresh : ¬ number ∈ set) : FilePrimeSet where
  elems := set.elems ++ [number]
  nodup := by
    rw [List.nodup_append]
    refine ⟨set.nodup, by simp, ?_⟩
    rintro left present right single rfl
    exact fresh (List.mem_singleton.mp single ▸ present)

@[simp] theorem mem_add {set : FilePrimeSet} {number : UInt64} (other : UInt64) (fresh : ¬ number ∈ set) :
    other ∈ set.add number fresh ↔ other ∈ set ∨ other = number := by
  simp [← mem_elems, add]

def ofList (numbers : List UInt64) : FilePrimeSet := ⟨numbers.dedup, numbers.nodup_dedup⟩

@[simp] theorem mem_ofList (numbers : List UInt64) (number : UInt64) :
    number ∈ ofList numbers ↔ number ∈ numbers :=
  List.mem_dedup

end FilePrimeSet

def filterUniquePrimes : List UInt64 → FilePrimeSet → List UInt64 × FilePrimeSet
  | [], primeSet => ([], primeSet)
  | p :: rest, primeSet =>
      if exists_ : p ∈ primeSet then filterUniquePrimes rest primeSet
      else
        let later := filterUniquePrimes rest (primeSet.add p exists_)
        (p :: later.1, later.2)

variable (primes : List UInt64)

theorem mem_filterUniquePrimes_set (primeSet : FilePrimeSet) (number : UInt64) :
    number ∈ (filterUniquePrimes primes primeSet).2 ↔ number ∈ primeSet ∨ number ∈ primes := by
  induction primes generalizing primeSet with
  | nil => simp [filterUniquePrimes]
  | cons p rest ih =>
    unfold filterUniquePrimes
    split_ifs with present
    · simp only [ih, List.mem_cons]
      constructor
      · tauto
      · rintro (old | rfl | later)
        · exact .inl old
        · exact .inl present
        · exact .inr later
    · simp only [ih, FilePrimeSet.mem_add, List.mem_cons]
      tauto

theorem mem_filterUniquePrimes (primeSet : FilePrimeSet) (number : UInt64) :
    number ∈ (filterUniquePrimes primes primeSet).1 ↔ number ∈ primes ∧ ¬ number ∈ primeSet := by
  induction primes generalizing primeSet with
  | nil => simp [filterUniquePrimes]
  | cons p rest ih =>
    unfold filterUniquePrimes
    split_ifs with present
    · rw [ih, List.mem_cons]
      constructor
      · exact fun later => ⟨.inr later.1, later.2⟩
      · rintro ⟨rfl | later, fresh⟩
        · exact absurd present fresh
        · exact ⟨later, fresh⟩
    · simp only [List.mem_cons, ih]
      by_cases first : number = p
      · simp [first, present]
      · simp [first]

variable {primeSet : FilePrimeSet}

theorem filterUniquePrimes_known (known : ∀ number ∈ primes, number ∈ primeSet) :
    filterUniquePrimes primes primeSet = ([], primeSet) := by
  induction primes with
  | nil => rfl
  | cons p rest ih =>
    have head : p ∈ primeSet := known p (by simp)
    simp [filterUniquePrimes, head, ih fun number member => known number (by simp [member])]

def firstOccurrences (primes : List UInt64) (primeSet : FilePrimeSet) : List UInt64 :=
  (primes.zipIdx.filter fun item => ¬ item.1 ∈ primeSet ∧ item.1 ∉ primes.take item.2).map Prod.fst

theorem firstOccurrences_cons (p : UInt64) (rest : List UInt64) (primeSet : FilePrimeSet) {later : FilePrimeSet}
    (grown : ∀ number, number ∈ later ↔ number ∈ primeSet ∨ number = p) :
    firstOccurrences (p :: rest) primeSet =
      (if p ∈ primeSet then [] else [p]) ++ firstOccurrences rest later := by
  have tail : ((rest.zipIdx 1).filter fun item =>
      ¬ item.1 ∈ primeSet ∧ item.1 ∉ (p :: rest).take item.2).map Prod.fst = firstOccurrences rest later := by
    rw [List.zipIdx_succ, List.filter_map, List.map_map]
    congr 1
    refine List.filter_congr fun item _ => ?_
    simp only [Function.comp_apply, List.take_succ_cons, List.mem_cons, grown, decide_eq_decide]
    tauto
  rw [← tail, firstOccurrences]
  by_cases known : p ∈ primeSet
  · simp [known]
  · simp [known]

theorem filterUniquePrimes_old {p : UInt64} (rest : List UInt64) (known : p ∈ primeSet) :
    filterUniquePrimes (p :: rest) primeSet = filterUniquePrimes rest primeSet := by
  rw [filterUniquePrimes, dif_pos known]

theorem filterUniquePrimes_new {p : UInt64} (rest : List UInt64) (fresh : ¬ p ∈ primeSet) :
    filterUniquePrimes (p :: rest) primeSet =
      (p :: (filterUniquePrimes rest (primeSet.add p fresh)).1,
        (filterUniquePrimes rest (primeSet.add p fresh)).2) := by
  rw [filterUniquePrimes, dif_neg fresh]

theorem filterUniquePrimes_first (primeSet : FilePrimeSet) :
    (filterUniquePrimes primes primeSet).1 = firstOccurrences primes primeSet := by
  induction primes generalizing primeSet with
  | nil => rfl
  | cons p rest ih =>
    by_cases known : p ∈ primeSet
    · have grown : ∀ number, number ∈ primeSet ↔ number ∈ primeSet ∨ number = p := by
        refine fun number => ⟨.inl, ?_⟩
        rintro (old | rfl)
        · exact old
        · exact known
      rw [filterUniquePrimes_old rest known, firstOccurrences_cons p rest primeSet grown,
        if_pos known, ih, List.nil_append]
    · rw [filterUniquePrimes_new rest known,
        firstOccurrences_cons p rest primeSet fun number => FilePrimeSet.mem_add number known, if_neg known, ← ih,
        List.singleton_append]

theorem filterUniquePrimes_elems (primeSet : FilePrimeSet) :
    (filterUniquePrimes primes primeSet).2.elems = primeSet.elems ++ (filterUniquePrimes primes primeSet).1 := by
  induction primes generalizing primeSet with
  | nil => simp [filterUniquePrimes]
  | cons p rest ih =>
    by_cases known : p ∈ primeSet
    · rw [filterUniquePrimes_old rest known, ih]
    · rw [filterUniquePrimes_new rest known, ih, FilePrimeSet.add, List.append_assoc,
        List.singleton_append]

theorem filterUniquePrimes_append (more : List UInt64) (primeSet : FilePrimeSet) :
    filterUniquePrimes (primes ++ more) primeSet =
      ((filterUniquePrimes primes primeSet).1 ++
          (filterUniquePrimes more (filterUniquePrimes primes primeSet).2).1,
        (filterUniquePrimes more (filterUniquePrimes primes primeSet).2).2) := by
  induction primes generalizing primeSet with
  | nil => rfl
  | cons p rest ih =>
    rw [List.cons_append]
    by_cases known : p ∈ primeSet
    · rw [filterUniquePrimes_old _ known, filterUniquePrimes_old rest known, ih]
    · rw [filterUniquePrimes_new _ known, filterUniquePrimes_new rest known, ih,
        List.cons_append]

theorem firstOccurrences_sublist (primeSet : FilePrimeSet) : (firstOccurrences primes primeSet).Sublist primes := by
  have positions := (List.filter_sublist (l := primes.zipIdx)
    (p := fun item => ¬ item.1 ∈ primeSet ∧ item.1 ∉ primes.take item.2)).map Prod.fst
  rwa [List.zipIdx_map_fst] at positions

theorem filterUniquePrimes_exact (primes : List UInt64) (primeSet : FilePrimeSet) :
    let done := filterUniquePrimes primes primeSet
    done.1 = firstOccurrences primes primeSet ∧ done.1.Sublist primes ∧ done.1.Nodup ∧
      (∀ number ∈ done.1, ¬ number ∈ primeSet) ∧
      (∀ number, number ∈ done.2 ↔ number ∈ primeSet ∨ number ∈ primes) ∧
      done.2.elems.length = primeSet.elems.length + done.1.length ∧
      ∀ more, filterUniquePrimes (primes ++ more) primeSet =
        (done.1 ++ (filterUniquePrimes more done.2).1, (filterUniquePrimes more done.2).2) := by
  have first := filterUniquePrimes_first primes primeSet
  have elems := filterUniquePrimes_elems primes primeSet
  refine ⟨first, first ▸ firstOccurrences_sublist primes primeSet, ?_, ?_, mem_filterUniquePrimes_set primes primeSet,
    ?_, fun more => filterUniquePrimes_append primes more primeSet⟩
  · have distinct := (filterUniquePrimes primes primeSet).2.nodup
    rw [elems] at distinct
    exact (List.nodup_append.mp distinct).2.1
  · exact fun number member => ((mem_filterUniquePrimes primes primeSet number).mp member).2
  · rw [elems, List.length_append]

-- The order in which a range loop meets the keys of a Go map: any permutation of them.
structure RangeOrder where
  order : List UInt64 → List UInt64
  perm : ∀ keys, (order keys).Perm keys

def RangeOrder.stored : RangeOrder := ⟨id, fun _ => .refl _⟩

def RangeOrder.render (range : RangeOrder) (primeSet : FilePrimeSet) : Bytes :=
  renderNumbers (range.order primeSet.elems)

theorem RangeOrder.parse_render (range : RangeOrder) (primeSet : FilePrimeSet) :
    (parseNumbers (range.render primeSet)).Nodup ∧
      ∀ number, number ∈ parseNumbers (range.render primeSet) ↔ number ∈ primeSet := by
  have same := range.perm primeSet.elems
  rw [RangeOrder.render, parseNumbers_renderNumbers]
  exact ⟨same.nodup_iff.mpr primeSet.nodup, fun number => same.mem_iff⟩

theorem number_text_round_trip :
    (∀ (numbers : List UInt64) (rest : Bytes),
      parseNumbers (renderNumbers numbers ++ rest) = numbers ++ parseNumbers rest) ∧
    ∀ (range : RangeOrder) (primeSet : FilePrimeSet),
      (parseNumbers (range.render primeSet)).Perm primeSet.elems ∧ (parseNumbers (range.render primeSet)).Nodup ∧
        ∀ number, number ∈ parseNumbers (range.render primeSet) ↔ number ∈ primeSet := by
  refine ⟨parseNumbers_render, fun range primeSet => ⟨?_, range.parse_render primeSet⟩⟩
  rw [RangeOrder.render, parseNumbers_renderNumbers]
  exact range.perm primeSet.elems

end Ikkat
