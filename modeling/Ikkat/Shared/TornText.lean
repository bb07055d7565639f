import Ikkat.Shared.Json

set_option autoImplicit false

namespace Json

-- What follows a text that breaks off begins with an opening brace.
def brace : UInt8 := 123

theorem prefix_append_cases {cut first second : Text} (short : cut <+: first ++ second) :
    (∃ byte more, first = cut ++ byte :: more) ∨ ∃ later, cut = first ++ later ∧ later <+: second := by
  rcases List.prefix_or_prefix_of_prefix short (List.prefix_append first second) with inside | ⟨later, rfl⟩
  · obtain ⟨rest, rfl⟩ := inside
    cases rest with
    | nil => exact .inr ⟨[], by simp⟩
    | cons byte more => exact .inl ⟨byte, more, rfl⟩
  · exact .inr ⟨later, rfl, (List.prefix_append_right_inj first).mp short⟩

variable {first byte : UInt8} {front rest : Text}

theorem prefix_before_last {whole : Text} {last : UInt8}
    (split : whole ++ [last] = front ++ byte :: rest) : front <+: whole := by
  rcases List.prefix_concat_iff.mp (⟨byte :: rest, split.symm⟩ : front <+: whole ++ [last]) with all | before
  · have lengths := congrArg List.length split
    rw [all] at lengths
    simp at lengths
  · exact before

variable {α : Type} {cut second more : Text}

theorem expect_mismatch (front rest tail : Text) {other : UInt8} (different : byte ≠ other) :
    expect (front ++ byte :: rest) (front ++ other :: tail) = none := by
  have mismatch : ¬ (front ++ byte :: rest) <+: (front ++ other :: tail) := by
    rw [List.prefix_append_right_inj, List.cons_prefix_cons]
    exact fun same => different same.1
  rw [expect, if_neg (mt List.isPrefixOf_iff_prefix.mp mismatch)]

theorem expect_torn {wanted : Text} {next : Text → Option α} (short : cut <+: wanted ++ second)
    (foreign : brace ∉ wanted) (later : ∀ rest, rest <+: second → next (rest ++ brace :: more) = none) :
    (expect wanted (cut ++ brace :: more)).bind next = none := by
  rcases prefix_append_cases short with ⟨byte, rest, rfl⟩ | ⟨rest, rfl, left⟩
  · have different : byte ≠ brace := by
      rintro rfl
      simp at foreign
    rw [expect_mismatch cut rest more different, Option.bind_none]
  · rw [List.append_assoc, expect_append]
    exact later rest left

theorem decodeNat_torn {digits : Text} (more : Text) (all : ∀ byte ∈ digits, Words.isDigit byte = true) :
    decodeNat (digits ++ brace :: more) = none ∨
      ∃ n, decodeNat (digits ++ brace :: more) = some (n, brace :: more) := by
  have stops : Words.isDigit brace = false := rfl
  unfold decodeNat
  rw [List.takeWhile_append_of_pos all, List.dropWhile_append_of_pos all]
  dsimp only
  split_ifs
  · exact .inl rfl
  · exact .inr ⟨Words.value digits, by simp [stops]⟩

theorem decodeInt_cut (n : Int) (more : Text) (short : cut <+: Words.integer n) :
    decodeInt (cut ++ brace :: more) = none ∨
      ∃ m, decodeInt (cut ++ brace :: more) = some (m, brace :: more) := by
  have digits {front : Text} (inside : front <+: Words.decimal n.natAbs) :
      ∀ byte ∈ front, Words.isDigit byte = true :=
    fun byte member => Words.decimal_isDigit _ byte (inside.subset member)
  have unsigned (front : Text) (all : ∀ byte ∈ front, Words.isDigit byte = true) :
      decodeInt (front ++ brace :: more) = none ∨
        ∃ m, decodeInt (front ++ brace :: more) = some (m, brace :: more) := by
    have plain : decodeInt (front ++ brace :: more) =
        (decodeNat (front ++ brace :: more)).map fun read => ((read.1 : Int), read.2) := by
      cases front with
      | nil => rfl
      | cons byte rest =>
        have notMinus : byte ≠ 45 := by
          rintro rfl
          exact absurd (all 45 (by simp)) (by decide)
        rw [List.cons_append, decodeInt, if_neg notMinus]
    rw [plain]
    rcases decodeNat_torn more all with failed | ⟨m, read⟩
    · exact .inl (by rw [failed, Option.map_none])
    · exact .inr ⟨m, by rw [read, Option.map_some]⟩
  unfold Words.integer at short
  split_ifs at short
  · cases cut with
    | nil => exact unsigned [] (by simp)
    | cons byte rest =>
      obtain ⟨rfl, inside⟩ := List.cons_prefix_cons.mp short
      have signed : decodeInt (45 :: rest ++ brace :: more) =
          (decodeNat (rest ++ brace :: more)).map fun read => (-(read.1 : Int), read.2) := rfl
      rw [signed]
      rcases decodeNat_torn more (digits inside) with failed | ⟨m, read⟩
      · exact .inl (by rw [failed, Option.map_none])
      · exact .inr ⟨-m, by rw [read, Option.map_some]⟩
  · exact unsigned cut (digits short)

theorem decodeInt_torn {n : Int} {next : Int × Text → Option α} (short : cut <+: Words.integer n ++ second)
    (stops : ∀ byte, second.head? = some byte → Words.isDigit byte = false)
    (later : ∀ m rest, rest <+: second → next (m, rest ++ brace :: more) = none) :
    (decodeInt (cut ++ brace :: more)).bind next = none := by
  rcases prefix_append_cases short with ⟨byte, rest, split⟩ | ⟨rest, rfl, left⟩
  · rcases decodeInt_cut n more ⟨byte :: rest, split.symm⟩ with failed | ⟨m, read⟩
    · rw [failed, Option.bind_none]
    · rw [read]
      exact later m [] (by simp)
  · have stopped : ∀ byte, (rest ++ brace :: more).head? = some byte → Words.isDigit byte = false := by
      intro byte head
      cases rest with
      | nil =>
        cases head
        rfl
      | cons first tail =>
        obtain ⟨after, rfl⟩ := left
        exact stops byte head
    rw [List.append_assoc, decodeInt_integer n stopped]
    exact later n rest left

theorem hexChar_foreign {w x y z : UInt8} (among : brace = w ∨ brace = x ∨ brace = y ∨ brace = z) :
    hexChar w x y z = none := by
  have foreign : hexValue brace = none := by decide
  unfold hexChar
  rcases among with rfl | rfl | rfl | rfl <;> simp [foreign]

-- No character of more than one byte is the beginning of another one.
theorem utf8_torn {c : Char} (more : Text) (split : String.utf8EncodeChar c = first :: front ++ byte :: rest) :
    (first :: front ++ brace :: more).toByteArray.utf8DecodeChar? 0 = none := by
  have wideOf (c : Char) (high : 128 ≤ first) (begins : ∃ rest, String.utf8EncodeChar c = first :: rest) :
      128 ≤ c.toNat := by
    by_contra small
    obtain ⟨rest, whole⟩ := begins
    rw [utf8_ascii c (by omega), List.cons.injEq] at whole
    have low : first.toNat < 128 := by
      rw [← whole.1, UInt8.toNat_ofNat']
      omega
    rw [UInt8.le_iff_toNat_le] at high
    exact absurd high (by simpa using low)
  have wide : 128 ≤ c.toNat := by
    by_contra small
    rw [utf8_ascii c (by omega)] at split
    simp at split
  have high := utf8_wide c wide
  rw [Option.eq_none_iff_forall_ne_some]
  intro other read
  obtain ⟨tail, whole⟩ := ByteArray.exists_of_utf8DecodeChar?_eq_some read
  have listed : first :: front ++ brace :: more = String.utf8EncodeChar other ++ tail.data.toList := by
    have same := congrArg (fun bytes => bytes.data.toList) whole
    simpa using same
  have begins : ∃ rest, String.utf8EncodeChar other = first :: rest := by
    obtain ⟨head, rest, same⟩ := List.exists_cons_of_ne_nil (String.utf8EncodeChar_ne_nil (c := other))
    rw [same, List.cons_append, List.cons_append, List.cons.injEq] at listed
    exact ⟨rest, by rw [same, listed.1]⟩
  have others := utf8_wide other (wideOf other (high first (by simp [split])) begins)
  have inside : String.utf8EncodeChar other <+: first :: front ++ brace :: more := ⟨_, listed.symm⟩
  have shorter : ∃ later, first :: front = String.utf8EncodeChar other ++ later := by
    rcases prefix_append_cases inside with ⟨next, later, shorter⟩ | ⟨later, same, left⟩
    · exact ⟨next :: later, shorter⟩
    · cases later with
      | nil => exact ⟨[], by rw [same, List.append_nil, List.append_nil]⟩
      | cons next later =>
        obtain ⟨rfl, -⟩ := List.cons_prefix_cons.mp left
        exact absurd (others brace (by simp [same])) (by decide)
  obtain ⟨later, shorter⟩ := shorter
  have again : (String.utf8EncodeChar c).toByteArray.utf8DecodeChar? 0 = some other := by
    rw [split, shorter, List.append_assoc, List.toByteArray_append, ByteArray.utf8DecodeChar?_utf8EncodeChar_append]
  have own : (String.utf8EncodeChar c).toByteArray.utf8DecodeChar? 0 = some c := by
    rw [← List.append_nil (String.utf8EncodeChar c), List.toByteArray_append,
      ByteArray.utf8DecodeChar?_utf8EncodeChar_append]
  cases own.symm.trans again
  rw [shorter, List.append_assoc] at split
  simpa using List.self_eq_append_right.mp split

theorem decodeChar_foreign (text : Text) (inside : brace ∈ text.take 4) :
    decodeChar (backslash :: 117 :: text) = none := by
  simp only [decodeChar, if_true]
  split
  case h_1 w x y z rest =>
    have among : brace = w ∨ brace = x ∨ brace = y ∨ brace = z := by simpa using inside
    rw [hexChar_foreign among, Option.map_none]
  case h_2 => rfl

theorem decodeChar_torn {c : Char} (split : encodeChar c = first :: front ++ byte :: rest) :
    decodeChar (first :: front ++ brace :: more) = none := by
  have bare : decodeChar (backslash :: brace :: more) = none := by
    have unlettered : unletter 123 = none := by decide
    simp [decodeChar, brace, unlettered]
  unfold encodeChar at split
  cases short : letter c with
  | some letter =>
    rw [short, List.cons_append, List.cons.injEq] at split
    cases front with
    | nil => rw [← split.1]; exact bare
    | cons next later => simp at split
  | none =>
    rw [short] at split
    split_ifs at split with special
    · rw [List.cons_append, List.cons.injEq] at split
      obtain ⟨rfl, tail⟩ := split
      cases front with
      | nil => exact bare
      | cons kind digits =>
        rw [List.cons_append, List.cons.injEq] at tail
        obtain ⟨rfl, tail⟩ := tail
        have few := congrArg List.length tail
        simp only [List.length_cons, List.length_nil, List.length_append] at few
        refine decodeChar_foreign (digits ++ brace :: more) (List.mem_of_getElem? (i := digits.length) ?_)
        rw [List.getElem?_take_of_lt (by omega), List.getElem?_append_right (Nat.le_refl _), Nat.sub_self]
        rfl
    · rcases Nat.lt_or_ge c.toNat 128 with small | wide
      · rw [utf8_ascii c small] at split
        simp at split
      · have high := utf8_wide c wide first (by simp [split])
        have apart (low : UInt8) (below : low < 128) : first ≠ low := by
          rintro rfl
          exact absurd high (by simpa using below)
        have notLow : ¬ first < 32 := by
          rw [UInt8.lt_iff_toNat_lt]
          rw [UInt8.le_iff_toNat_le] at high
          simp at high ⊢
          omega
        have unread := utf8_torn more split
        rw [List.cons_append] at unread ⊢
        simp only [decodeChar, apart backslash (by decide), notLow, if_false, if_neg (show ¬ first < 128 by simpa using high),
          unread, Option.map_none]

theorem decodeChars_torn (chars : List Char) (more : Text) (short : cut <+: chars.flatMap encodeChar) :
    decodeChars 0 (cut ++ brace :: quote :: more) = none ∨
      ∃ read, decodeChars 0 (cut ++ brace :: quote :: more) = some (read, more) := by
  have ends : decodeChars 0 (brace :: quote :: more) = some ([Char.ofNat 123], more) := by
    simp [decodeChars, decodeChar, brace, quote, backslash]
  induction chars generalizing cut with
  | nil =>
    rw [List.prefix_nil.mp short]
    exact .inr ⟨_, ends⟩
  | cons c later ih =>
    rcases prefix_append_cases short with ⟨byte, rest, split⟩ | ⟨rest, rfl, left⟩
    · cases cut with
      | nil => exact .inr ⟨_, ends⟩
      | cons first front =>
        obtain ⟨head, tail, begins, notQuote⟩ := encodeChar_head c
        have same : first = head := by
          rw [split, List.cons_append, List.cons.injEq] at begins
          exact begins.1
        left
        rw [List.cons_append, decodeChars, if_neg (same ▸ notQuote), ← List.cons_append,
          decodeChar_torn split]
    · rw [List.append_assoc, decodeChars_encodeChar]
      rcases ih left with failed | ⟨read, finished⟩
      · exact .inl (by rw [failed, Option.map_none])
      · exact .inr ⟨c :: read, by rw [finished, Option.map_some]⟩

theorem decodeString_torn {text : String} {next : String × Text → Option α} (short : cut <+: encodeString text ++ second)
    (inside : ∀ read, next (read, more) = none)
    (later : ∀ read rest, rest <+: second → next (read, rest ++ brace :: quote :: more) = none) :
    (decodeString (cut ++ brace :: quote :: more)).bind next = none := by
  rcases prefix_append_cases short with ⟨byte, rest, split⟩ | ⟨rest, rfl, left⟩
  · cases cut with
    | nil => simp [decodeString, brace, quote]
    | cons first front =>
      have body : text.toList.flatMap encodeChar ++ [quote] = front ++ byte :: rest ∧ first = quote := by
        rw [encodeString, List.cons_append, List.cons_append, List.cons.injEq] at split
        exact ⟨split.2, split.1.symm⟩
      rw [List.cons_append, decodeString, if_pos body.2]
      rcases decodeChars_torn text.toList more (prefix_before_last body.1) with failed | ⟨read, finished⟩
      · rw [failed, Option.map_none, Option.bind_none]
      · rw [finished]
        exact inside _
  · rw [List.append_assoc, decodeString_encodeString]
    exact later text rest left

end Json
