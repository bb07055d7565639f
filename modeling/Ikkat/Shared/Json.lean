import Ikkat.Shared.Words

set_option autoImplicit false

namespace Json

abbrev Text := List UInt8

def quote : UInt8 := 34

def backslash : UInt8 := 92

def hexDigit (n : Nat) : UInt8 :=
  if n < 10 then (48 + n).toUInt8 else (87 + n).toUInt8

def hexValue (byte : UInt8) : Option Nat :=
  if 48 ≤ byte ∧ byte ≤ 57 then some (byte.toNat - 48)
  else if 97 ≤ byte ∧ byte ≤ 102 then some (byte.toNat - 87)
  else if 65 ≤ byte ∧ byte ≤ 70 then some (byte.toNat - 55)
  else none

theorem hexValue_hexDigit : ∀ n < 16, hexValue (hexDigit n) = some n := by decide

theorem hexDigit_printable : ∀ n < 16, 32 ≤ hexDigit n := by decide

def letters : List (Char × UInt8) :=
  [('"', 34), ('\\', 92), (Char.ofNat 8, 98), (Char.ofNat 12, 102), ('\n', 110), ('\r', 114), ('\t', 116)]

def letter (c : Char) : Option UInt8 := letters.lookup c

def unletter (byte : UInt8) : Option Char :=
  (letters.find? fun item => item.2 = byte).map (·.1)

-- Control characters, the ones HTML gives a meaning, and the two line separators.
def numeric (c : Char) : Bool :=
  c.toNat < 32 || c = '<' || c = '>' || c = '&' || c.toNat = 0x2028 || c.toNat = 0x2029

def encodeChar (c : Char) : Text :=
  match letter c with
  | some byte => [backslash, byte]
  | none =>
      if numeric c then
        [backslash, 117, hexDigit (c.toNat / 4096 % 16), hexDigit (c.toNat / 256 % 16),
          hexDigit (c.toNat / 16 % 16), hexDigit (c.toNat % 16)]
      else String.utf8EncodeChar c

def encodeString (text : String) : Text :=
  quote :: text.toList.flatMap encodeChar ++ [quote]

def hexChar (w x y z : UInt8) : Option Char := do
  let w ← hexValue w
  let x ← hexValue x
  let y ← hexValue y
  let z ← hexValue z
  let n := ((w * 16 + x) * 16 + y) * 16 + z
  if n.isValidChar then some (Char.ofNat n) else none

def decodeChar : Text → Option (Char × Nat)
  | [] => none
  | byte :: rest =>
      if byte = backslash then
        match rest with
        | [] => none
        | kind :: more =>
            if kind = 117 then
              match more with
              | w :: x :: y :: z :: _ => (hexChar w x y z).map fun c => (c, 5)
              | _ => none
            else (unletter kind).map fun c => (c, 1)
      else if byte < 32 then none
      else if byte < 128 then some (Char.ofNat byte.toNat, 0)
      else ((byte :: rest).toByteArray.utf8DecodeChar? 0).map fun c => (c, c.utf8Size - 1)

def decodeChars : Nat → Text → Option (List Char × Text)
  | _, [] => none
  | skip + 1, _ :: rest => decodeChars skip rest
  | 0, byte :: rest =>
      if byte = quote then some ([], rest)
      else
        match decodeChar (byte :: rest) with
        | none => none
        | some (c, more) => (decodeChars more rest).map fun later => (c :: later.1, later.2)

def decodeString (text : Text) : Option (String × Text) :=
  match text with
  | [] => none
  | byte :: rest =>
      if byte = quote then (decodeChars 0 rest).map fun read => (String.ofList read.1, read.2) else none

def decodeNat (text : Text) : Option (Nat × Text) :=
  let digits := text.takeWhile Words.isDigit
  if digits = [] then none else some (Words.value digits, text.dropWhile Words.isDigit)

def decodeInt (text : Text) : Option (Int × Text) :=
  match text with
  | [] => none
  | byte :: rest =>
      if byte = 45 then (decodeNat rest).map fun read => (-(read.1 : Int), read.2)
      else (decodeNat (byte :: rest)).map fun read => ((read.1 : Int), read.2)

def literal (text : String) : Text := text.toList.map fun c => c.toNat.toUInt8

def expect (wanted text : Text) : Option Text :=
  if wanted.isPrefixOf text then some (text.drop wanted.length) else none

variable {c : Char}

theorem letter_unletter {byte : UInt8} (short : letter c = some byte) :
    unletter byte = some c ∧ byte ≠ 117 ∧ 32 ≤ byte := by
  have all : ∀ item ∈ letters, unletter item.2 = some item.1 ∧ item.2 ≠ 117 ∧ 32 ≤ item.2 := by decide
  obtain ⟨front, back, split, _⟩ := List.lookup_eq_some_iff.mp short
  exact all (c, byte) (by rw [split]; simp)

theorem hexChar_hexDigit (small : c.toNat < 65536) :
    hexChar (hexDigit (c.toNat / 4096 % 16)) (hexDigit (c.toNat / 256 % 16)) (hexDigit (c.toNat / 16 % 16))
      (hexDigit (c.toNat % 16)) = some c := by
  have read (n : Nat) : hexValue (hexDigit (n % 16)) = some (n % 16) :=
    hexValue_hexDigit _ (Nat.mod_lt _ (by decide))
  have whole : ((c.toNat / 4096 % 16 * 16 + c.toNat / 256 % 16) * 16 + c.toNat / 16 % 16) * 16 +
      c.toNat % 16 = c.toNat := by omega
  have valid : c.toNat.isValidChar := c.valid
  simp [hexChar, read, whole, valid]

theorem utf8_ascii (c : Char) (small : c.toNat < 128) :
    String.utf8EncodeChar c = [UInt8.ofNat c.toNat] := by
  exact if_pos (by change c.toNat ≤ 127; omega)

theorem utf8_wide (c : Char) (wide : 128 ≤ c.toNat) : ∀ byte ∈ String.utf8EncodeChar c, 128 ≤ byte := by
  have high (n low : Nat) (bound : 128 ≤ n + low) (fits : n + low < 256) : 128 ≤ UInt8.ofNat (n + low) := by
    rw [UInt8.le_iff_toNat_le, UInt8.toNat_ofNat', Nat.mod_eq_of_lt fits]
    exact bound
  have many : ¬ c.val.toNat ≤ 127 := by change ¬ c.toNat ≤ 127; omega
  intro byte member
  rw [String.utf8EncodeChar.eq_1] at member
  split_ifs at member <;>
    simp only [List.mem_cons, List.not_mem_nil, or_false] at member <;>
    rcases member with rfl | rfl | rfl | rfl <;>
    exact high _ _ (by omega) (by omega)

theorem numeric_small (special : numeric c = true) : c.toNat < 65536 := by
  simp only [numeric, Bool.or_eq_true, decide_eq_true_eq] at special
  rcases special with ((((low | rfl) | rfl) | rfl) | line) | paragraph
  · omega
  · decide
  · decide
  · decide
  · omega
  · omega

theorem plain_char (long : letter c = none) (raw : numeric c = false) (small : c.toNat < 128) :
    32 ≤ UInt8.ofNat c.toNat ∧ UInt8.ofNat c.toNat ≠ quote ∧ UInt8.ofNat c.toNat ≠ backslash := by
  have low : 32 ≤ c.toNat := by
    by_contra below
    simp [numeric, Nat.lt_of_not_le below] at raw
  have value : (UInt8.ofNat c.toNat).toNat = c.toNat := by
    rw [UInt8.toNat_ofNat', Nat.mod_eq_of_lt (by omega)]
  have different (other : Char) (known : letter other ≠ none) (byte : UInt8)
      (same : UInt8.ofNat c.toNat = byte) (code : byte.toNat = other.toNat) : False := by
    have equal : c = other := Char.toNat_inj.mp (by rw [← value, same, code])
    exact known (equal ▸ long)
  refine ⟨by rw [UInt8.le_iff_toNat_le, value]; exact low, fun same => ?_, fun same => ?_⟩
  · exact different '"' (by decide) quote same (by decide)
  · exact different '\\' (by decide) backslash same (by decide)

theorem encodeChar_head (c : Char) :
    ∃ byte more, encodeChar c = byte :: more ∧ byte ≠ quote := by
  unfold encodeChar
  cases short : letter c with
  | some byte => exact ⟨backslash, [byte], rfl, by decide⟩
  | none =>
    split_ifs with special
    · exact ⟨backslash, _, rfl, by decide⟩
    · rcases Nat.lt_or_ge c.toNat 128 with small | wide
      · rw [utf8_ascii c small]
        exact ⟨_, [], rfl, (plain_char short (by simpa using special) small).2.1⟩
      · obtain ⟨byte, more, split⟩ := List.exists_cons_of_ne_nil (String.utf8EncodeChar_ne_nil (c := c))
        refine ⟨byte, more, split, ?_⟩
        have high := utf8_wide c wide byte (by rw [split]; simp)
        intro same
        rw [same] at high
        exact absurd high (by decide)

theorem decodeChar_encodeChar (c : Char) (rest : Text) :
    decodeChar (encodeChar c ++ rest) = some (c, (encodeChar c).length - 1) := by
  unfold encodeChar
  cases short : letter c with
  | some byte =>
    obtain ⟨read, notNumeric, _⟩ := letter_unletter short
    simp [decodeChar, notNumeric, read]
  | none =>
    split_ifs with special
    · simp [decodeChar, hexChar_hexDigit (numeric_small special)]
    · rcases Nat.lt_or_ge c.toNat 128 with small | wide
      · obtain ⟨low, _, notBackslash⟩ := plain_char short (by simpa using special) small
        have value : (UInt8.ofNat c.toNat).toNat = c.toNat := by
          rw [UInt8.toNat_ofNat', Nat.mod_eq_of_lt (by omega)]
        have ascii : UInt8.ofNat c.toNat < 128 := by
          rw [UInt8.lt_iff_toNat_lt, value]
          exact small
        have printable : ¬ UInt8.ofNat c.toNat < 32 := by simpa using low
        rw [utf8_ascii c small]
        simp only [List.cons_append, List.nil_append, decodeChar, notBackslash, printable, ascii,
          if_false, if_true, value, Char.ofNat_toNat, List.length_singleton]
      · obtain ⟨byte, more, split⟩ := List.exists_cons_of_ne_nil (String.utf8EncodeChar_ne_nil (c := c))
        have high := utf8_wide c wide byte (by rw [split]; simp)
        have apart (low : UInt8) (below : low < 128) : byte ≠ low := by
          rintro rfl
          exact absurd high (by simpa using below)
        have read : ((byte :: (more ++ rest)).toByteArray.utf8DecodeChar? 0) = some c := by
          have joined : (byte :: (more ++ rest)).toByteArray =
              (String.utf8EncodeChar c).toByteArray ++ rest.toByteArray := by
            rw [← List.toByteArray_append, split, List.cons_append]
          rw [joined, ByteArray.utf8DecodeChar?_utf8EncodeChar_append]
        have size : c.utf8Size = more.length + 1 := by
          rw [← String.length_utf8EncodeChar, split, List.length_cons]
        have notLow : ¬ byte < 32 := by
          rw [UInt8.lt_iff_toNat_lt]
          rw [UInt8.le_iff_toNat_le] at high
          simp at high ⊢
          omega
        rw [split, List.cons_append]
        simp only [decodeChar, apart backslash (by decide), notLow, if_false, read,
          if_neg (show ¬ byte < 128 by simpa using high), Option.map_some, size, List.length_cons]

theorem encodeChar_printable (c : Char) : ∀ byte ∈ encodeChar c, 32 ≤ byte := by
  have hex (n : Nat) : 32 ≤ hexDigit (n % 16) := hexDigit_printable _ (Nat.mod_lt _ (by decide))
  have escape : 32 ≤ backslash := by decide
  unfold encodeChar
  cases short : letter c with
  | some byte => simp [escape, (letter_unletter short).2.2]
  | none =>
    split_ifs with special
    · simp [escape, hex]
    · rcases Nat.lt_or_ge c.toNat 128 with small | wide
      · rw [utf8_ascii c small]
        simpa using (plain_char short (by simpa using special) small).1
      · intro byte member
        exact UInt8.le_trans (by decide) (utf8_wide c wide byte member)

theorem decodeChars_skip (front rest : Text) :
    decodeChars front.length (front ++ rest) = decodeChars 0 rest := by
  induction front with
  | nil => rfl
  | cons byte more ih => simpa [decodeChars] using ih

theorem decodeChars_encodeChar (c : Char) (rest : Text) :
    decodeChars 0 (encodeChar c ++ rest) =
      (decodeChars 0 rest).map fun later => (c :: later.1, later.2) := by
  obtain ⟨byte, more, split, notQuote⟩ := encodeChar_head c
  have read := decodeChar_encodeChar c rest
  rw [split, List.cons_append, List.length_cons, Nat.add_sub_cancel] at read
  rw [split, List.cons_append, decodeChars, if_neg notQuote, read]
  simp only [decodeChars_skip]

theorem decodeChars_chars (chars : List Char) (rest : Text) :
    decodeChars 0 (chars.flatMap encodeChar ++ quote :: rest) = some (chars, rest) := by
  induction chars with
  | nil => simp [decodeChars]
  | cons c later ih => rw [List.flatMap_cons, List.append_assoc, decodeChars_encodeChar, ih]; rfl

theorem decodeString_encodeString (text : String) (rest : Text) :
    decodeString (encodeString text ++ rest) = some (text, rest) := by
  have read := decodeChars_chars text.toList rest
  simp [encodeString, decodeString, read]

theorem encodeString_printable (text : String) : ∀ byte ∈ encodeString text, 32 ≤ byte := by
  have ends : 32 ≤ quote := by decide
  intro byte member
  simp only [encodeString, List.cons_append, List.mem_cons, List.mem_append, List.mem_flatMap,
    List.not_mem_nil, or_false] at member
  rcases member with rfl | ⟨c, _, inside⟩ | rfl
  · exact ends
  · exact encodeChar_printable c byte inside
  · exact ends

theorem decodeNat_decimal (n : Nat) {rest : Text}
    (stops : ∀ byte, rest.head? = some byte → Words.isDigit byte = false) :
    decodeNat (Words.decimal n ++ rest) = some (n, rest) := by
  have digits : ∀ byte ∈ Words.decimal n, Words.isDigit byte = true := Words.decimal_isDigit n
  have after : rest.takeWhile Words.isDigit = [] ∧ rest.dropWhile Words.isDigit = rest := by
    cases rest with
    | nil => simp
    | cons byte more => simp [stops byte rfl]
  rw [decodeNat, List.takeWhile_append_of_pos digits, List.dropWhile_append_of_pos digits, after.1, after.2,
    List.append_nil, if_neg (Words.decimal_nonempty n), Words.value_decimal]

theorem decodeInt_integer (n : Int) {rest : Text}
    (stops : ∀ byte, rest.head? = some byte → Words.isDigit byte = false) :
    decodeInt (Words.integer n ++ rest) = some (n, rest) := by
  have read := decodeNat_decimal n.natAbs stops
  unfold Words.integer
  split_ifs with negative
  · simp only [List.cons_append, decodeInt, if_true, read, Option.map_some]
    congr 2
    omega
  · obtain ⟨byte, more, split⟩ := List.exists_cons_of_ne_nil (Words.decimal_nonempty n.natAbs)
    have digit := Words.decimal_isDigit n.natAbs byte (by rw [split]; simp)
    have notMinus : byte ≠ 45 := by
      rintro rfl
      exact absurd digit (by decide)
    rw [split, List.cons_append] at read ⊢
    simp only [decodeInt, notMinus, if_false, read, Option.map_some]
    congr 2
    omega

theorem integer_printable (n : Int) : ∀ byte ∈ Words.integer n, 32 ≤ byte := by
  have digits : ∀ byte ∈ Words.decimal n.natAbs, 32 ≤ byte := by
    intro byte member
    have digit := Words.decimal_isDigit _ byte member
    simp only [Words.isDigit, Bool.and_eq_true, decide_eq_true_eq] at digit
    exact UInt8.le_trans (by decide) digit.1
  unfold Words.integer
  split_ifs
  · simpa using digits
  · exact digits

theorem expect_append (wanted rest : Text) : expect wanted (wanted ++ rest) = some rest := by
  simp [expect]

end Json
