import Mathlib.Data.List.Basic

set_option autoImplicit false

namespace Words

section Fields

variable {Symbol : Type} (width : List Symbol → Nat)

def finished (word : List Symbol) : List (List Symbol) :=
  if word.isEmpty then [] else [word]

-- `width` is the length of the separator a text starts with, 0 if it starts with none;
-- `skip` symbols of a separator that has begun are still to be passed over.
def split : Nat → List Symbol → List Symbol → List (List Symbol)
  | _, word, [] => finished word
  | skip + 1, word, _ :: rest => split skip word rest
  | 0, word, symbol :: rest =>
      match width (symbol :: rest) with
      | 0 => split 0 (word ++ [symbol]) rest
      | skip + 1 => finished word ++ split skip [] rest

def fields (text : List Symbol) : List (List Symbol) :=
  split width 0 [] text

def Plain (symbol : Symbol) : Prop := ∀ rest, width (symbol :: rest) = 0

def Separator (symbol : Symbol) : Prop := ∀ rest, width (symbol :: rest) = 1

theorem split_plain (word plain rest : List Symbol) (isPlain : ∀ symbol ∈ plain, Plain width symbol) :
    split width 0 word (plain ++ rest) = split width 0 (word ++ plain) rest := by
  induction plain generalizing word with
  | nil => simp
  | cons symbol tail ih =>
    have head : width (symbol :: (tail ++ rest)) = 0 := isPlain symbol (by simp) _
    have later := ih (word ++ [symbol]) fun other member => isPlain other (by simp [member])
    simp only [List.cons_append, split, head, later, List.append_assoc, List.nil_append]

-- No separator that begins before the symbol reaches it or looks past it.
def Barrier (symbol : Symbol) : Prop :=
  ∀ text rest, text ≠ [] → width (text ++ symbol :: rest) = width (text ++ [symbol]) ∧
    width (text ++ [symbol]) ≤ text.length

theorem split_barrier {symbol : Symbol} (separates : Separator width symbol) (barrier : Barrier width symbol)
    (skip : Nat) (word text rest : List Symbol) (inside : skip ≤ text.length) :
    split width skip word (text ++ symbol :: rest) =
      split width skip word (text ++ [symbol]) ++ fields width rest := by
  induction text generalizing skip word with
  | nil =>
    obtain rfl : skip = 0 := Nat.le_zero.mp inside
    simp [split, separates rest, separates [], finished, fields]
  | cons first tail ih =>
    cases skip with
    | succ skip => exact ih skip word (Nat.le_of_succ_le_succ inside)
    | zero =>
      obtain ⟨same, short⟩ := barrier (first :: tail) rest (by simp)
      simp only [List.cons_append] at same short
      simp only [List.cons_append, split, same]
      cases found : width (first :: (tail ++ [symbol])) with
      | zero => exact ih 0 _ (Nat.zero_le _)
      | succ reach =>
        rw [found] at short
        simp only [ih reach [] (Nat.le_of_succ_le_succ short), List.append_assoc]

theorem fields_barrier {symbol : Symbol} (separates : Separator width symbol) (barrier : Barrier width symbol)
    (text rest : List Symbol) :
    fields width (text ++ symbol :: rest) = fields width (text ++ [symbol]) ++ fields width rest :=
  split_barrier width separates barrier 0 [] text rest (Nat.zero_le _)

theorem fields_word (word rest : List Symbol) {separator : Symbol} (nonempty : word ≠ [])
    (isPlain : ∀ symbol ∈ word, Plain width symbol) (separates : Separator width separator) :
    fields width (word ++ separator :: rest) = word :: fields width rest := by
  have passed := split_plain width [] word (separator :: rest) isPlain
  simp only [fields, passed, split, separates rest, finished]
  simp [nonempty]

theorem fields_lines (words : List (List Symbol)) (rest : List Symbol) {separator : Symbol}
    (nonempty : ∀ word ∈ words, word ≠ []) (isPlain : ∀ word ∈ words, ∀ symbol ∈ word, Plain width symbol)
    (separates : Separator width separator) :
    fields width (words.flatMap (fun word => word ++ [separator]) ++ rest) =
      words ++ fields width rest := by
  induction words with
  | nil => simp
  | cons word later ih =>
    have tail := ih (fun other member => nonempty other (by simp [member]))
      (fun other member => isPlain other (by simp [member]))
    have head := fields_word width word
      (later.flatMap (fun word => word ++ [separator]) ++ rest)
      (nonempty word (by simp)) (isPlain word (by simp)) separates
    simpa [tail] using head

end Fields

def isDigit (byte : UInt8) : Bool := 48 ≤ byte && byte ≤ 57

def decimal (n : Nat) : List UInt8 :=
  (Nat.toDigits 10 n).map fun digit => digit.toNat.toUInt8

def value (digits : List UInt8) : Nat :=
  Nat.ofDigitChars 10 (digits.map fun byte => Char.ofNat byte.toNat) 0

def integer (n : Int) : List UInt8 :=
  if n < 0 then 45 :: decimal n.natAbs else decimal n.natAbs

theorem toDigits_range {n : Nat} {digit : Char} (present : digit ∈ Nat.toDigits 10 n) :
    48 ≤ digit.toNat ∧ digit.toNat ≤ 57 :=
  Char.isDigit_iff_toNat.mp (Nat.isDigit_of_mem_toDigits (by decide) (by decide) present)

theorem decimal_isDigit (n : Nat) (byte : UInt8) (member : byte ∈ decimal n) :
    isDigit byte = true := by
  obtain ⟨digit, present, rfl⟩ := List.mem_map.mp member
  obtain ⟨low, high⟩ := toDigits_range present
  have small : digit.toNat % 256 = digit.toNat := Nat.mod_eq_of_lt (by omega)
  simp [isDigit, UInt8.le_iff_toNat_le, small, low, high]

theorem decimal_nonempty (n : Nat) : decimal n ≠ [] := by
  simp [decimal]

@[simp] theorem value_decimal (n : Nat) : value (decimal n) = n := by
  have same : (decimal n).map (fun byte => Char.ofNat byte.toNat) = Nat.toDigits 10 n := by
    rw [decimal, List.map_map]
    conv_rhs => rw [← List.map_id (Nat.toDigits 10 n)]
    apply List.map_congr_left
    intro digit present
    obtain ⟨low, high⟩ := toDigits_range present
    have small : digit.toNat % 256 = digit.toNat := Nat.mod_eq_of_lt (by omega)
    simp [small]
  rw [value, same, Nat.ofDigitChars_ten_toDigits]

end Words
