import Mathlib.Data.List.Basic

set_option autoImplicit false

namespace Base64

def symbol (n : Nat) : UInt8 :=
  if n < 26 then (65 + n).toUInt8
  else if n < 52 then (71 + n).toUInt8
  else if n < 62 then (n - 4).toUInt8
  else if n = 62 then 43
  else 47

def pad : UInt8 := 61

def digit (byte : UInt8) : Option Nat :=
  if 65 ≤ byte ∧ byte ≤ 90 then some (byte.toNat - 65)
  else if 97 ≤ byte ∧ byte ≤ 122 then some (byte.toNat - 71)
  else if 48 ≤ byte ∧ byte ≤ 57 then some (byte.toNat + 4)
  else if byte = 43 then some 62
  else if byte = 47 then some 63
  else none

theorem digit_symbol : ∀ n < 64, digit (symbol n) = some n := by decide

theorem symbol_printable : ∀ n < 64, 32 ≤ symbol n ∧ symbol n ≠ 34 ∧ symbol n ≠ pad := by decide

def group (a b c : UInt8) : Nat := a.toNat * 65536 + b.toNat * 256 + c.toNat

def symbols (group : Nat) : List UInt8 :=
  [symbol (group / 262144 % 64), symbol (group / 4096 % 64), symbol (group / 64 % 64), symbol (group % 64)]

def encode : List UInt8 → List UInt8
  | a :: b :: c :: rest => symbols (group a b c) ++ encode rest
  | [a, b] => (symbols (group a b 0)).take 3 ++ [pad]
  | [a] => (symbols (group a 0 0)).take 2 ++ [pad, pad]
  | [] => []

def number (w x y z : UInt8) : Option Nat := do
  let w ← digit w
  let x ← digit x
  let y ← digit y
  let z ← digit z
  some (((w * 64 + x) * 64 + y) * 64 + z)

def bytes (group : Nat) : List UInt8 :=
  [(group / 65536).toUInt8, (group / 256 % 256).toUInt8, (group % 256).toUInt8]

def decode : List UInt8 → Option (List UInt8)
  | [] => some []
  | w :: x :: y :: z :: rest =>
      if z = pad then
        if rest ≠ [] then none
        else if y = pad then (number w x 65 65).map fun group => (bytes group).take 1
        else (number w x y 65).map fun group => (bytes group).take 2
      else do
        let group ← number w x y z
        let later ← decode rest
        some (bytes group ++ later)
  | _ => none

theorem group_lt (a b c : UInt8) : group a b c < 16777216 := by
  have ha := a.toNat_lt
  have hb := b.toNat_lt
  have hc := c.toNat_lt
  unfold group
  omega

theorem number_symbols {whole : Nat} (bound : whole < 16777216) :
    number (symbol (whole / 262144 % 64)) (symbol (whole / 4096 % 64)) (symbol (whole / 64 % 64))
      (symbol (whole % 64)) = some whole := by
  have read (n : Nat) : digit (symbol (n % 64)) = some (n % 64) := digit_symbol _ (Nat.mod_lt _ (by decide))
  simp only [number, read]
  change some (_ : Nat) = _
  congr 1
  omega

theorem bytes_group (a b c : UInt8) : bytes (group a b c) = [a, b, c] := by
  have hb := b.toNat_lt
  have hc := c.toNat_lt
  have first : group a b c / 65536 = a.toNat := by unfold group; omega
  have second : group a b c / 256 % 256 = b.toNat := by unfold group; omega
  have third : group a b c % 256 = c.toNat := by unfold group; omega
  simp [bytes, first, second, third]

theorem decode_encode (data : List UInt8) : decode (encode data) = some data := by
  have filled (n : Nat) : symbol (n % 64) ≠ pad := (symbol_printable _ (Nat.mod_lt _ (by decide))).2.2
  induction data using encode.induct with
  | case1 a b c rest ih =>
    simp only [encode, symbols, List.cons_append, decode, filled]
    simp [number_symbols (group_lt a b c), bytes_group, ih]
  | case2 a b =>
    have last : group a b 0 % 64 = 0 := by simp only [group, UInt8.toNat_zero]; omega
    have read := number_symbols (group_lt a b 0)
    rw [last] at read
    simp only [encode, symbols, List.take, List.cons_append, List.nil_append, decode, filled, ne_eq,
      not_true, if_false, if_true]
    simp [show (65 : UInt8) = symbol 0 from rfl, read, bytes_group]
  | case3 a =>
    have third : group a 0 0 / 64 % 64 = 0 := by simp only [group, UInt8.toNat_zero]; omega
    have last : group a 0 0 % 64 = 0 := by simp only [group, UInt8.toNat_zero]; omega
    have read := number_symbols (group_lt a 0 0)
    rw [third, last] at read
    simp only [encode, symbols, List.take, List.cons_append, List.nil_append, decode, ne_eq, not_true,
      if_false, if_true]
    simp [show (65 : UInt8) = symbol 0 from rfl, read, bytes_group]
  | case4 => rfl

theorem encode_printable (data : List UInt8) : ∀ byte ∈ encode data, 32 ≤ byte ∧ byte ≠ 34 := by
  have plain (n : Nat) : 32 ≤ symbol (n % 64) ∧ symbol (n % 64) ≠ 34 :=
    ⟨(symbol_printable _ (Nat.mod_lt _ (by decide))).1, (symbol_printable _ (Nat.mod_lt _ (by decide))).2.1⟩
  have padding : 32 ≤ pad ∧ pad ≠ 34 := by decide
  induction data using encode.induct with
  | case1 a b c rest ih => simpa [encode, symbols, plain] using ih
  | case2 a b | case3 a => simp [encode, symbols, plain, padding]
  | case4 => simp [encode]

theorem length_encode (data : List UInt8) : (encode data).length = (data.length + 2) / 3 * 4 := by
  induction data using encode.induct with
  | case1 a b c rest ih =>
    simp only [encode, symbols, List.length_append, List.length_cons, List.length_nil]
    omega
  | case2 a b | case3 a => simp [encode, symbols]
  | case4 => rfl

theorem decode_foreign (text : List UInt8) (byte : UInt8) (inside : byte ∈ text) (foreign : digit byte = none)
    (unpadded : byte ≠ pad) : decode text = none := by
  have unread (w x y z : UInt8) (among : byte = w ∨ byte = x ∨ byte = y ∨ byte = z) : number w x y z = none := by
    unfold number
    rcases among with rfl | rfl | rfl | rfl <;> simp [foreign]
  induction text using decode.induct with
  | case1 => cases inside
  | case2 w x y rest more => rw [decode, if_pos rfl, if_pos more]
  | case3 w x rest alone =>
    rw [not_not] at alone
    subst alone
    have among : byte = w ∨ byte = x := by simpa [unpadded] using inside
    rw [decode, if_pos rfl, if_neg (by simp), if_pos rfl, unread w x 65 65 (by tauto), Option.map_none]
  | case4 w x y rest alone half =>
    rw [not_not] at alone
    subst alone
    have among : byte = w ∨ byte = x ∨ byte = y := by simpa [unpadded] using inside
    rw [decode, if_pos rfl, if_neg (by simp), if_neg half, unread w x y 65 (by tauto), Option.map_none]
  | case5 w x y z rest full ih =>
    rw [decode, if_neg full]
    simp only [List.mem_cons] at inside
    by_cases first : byte = w ∨ byte = x ∨ byte = y ∨ byte = z
    · rw [unread w x y z first]
      rfl
    · have later : byte ∈ rest := by tauto
      rw [ih later]
      cases number w x y z <;> rfl
  | case6 text short long => exact decode.eq_3 text short long

end Base64
