import Mathlib.Tactic.NormNum.Prime
import Ikkat.Shared.Pseudoprimes

set_option autoImplicit false

namespace Ikkat

-- bits.Mul64: the 128-bit product of `x` and `y` in two halves.
def mul64 (x y : UInt64) : UInt64 × UInt64 :=
  (UInt64.ofNat (x.toNat * y.toNat / 2 ^ 64), UInt64.ofNat (x.toNat * y.toNat))

-- bits.Div64: it panics (`none`) on a zero divisor and on a quotient beyond 64 bits.
def div64 (hi lo y : UInt64) : Option (UInt64 × UInt64) :=
  if y = 0 ∨ y ≤ hi then none
  else
    let dividend := hi.toNat * 2 ^ 64 + lo.toNat
    some (UInt64.ofNat (dividend / y.toNat), UInt64.ofNat (dividend % y.toNat))

def mulMod (a b mod : UInt64) : Option UInt64 := do
  let (hi, lo) := mul64 a b
  let (_, rem) ← div64 hi lo mod
  return rem

theorem shiftRight_toNat (exp : UInt64) : (exp >>> 1).toNat = exp.toNat / 2 := by
  simp [Nat.shiftRight_eq_div_pow]

theorem half_toNat (exp : UInt64) : (exp / 2).toNat = exp.toNat / 2 := by
  simp [UInt64.toNat_div]

theorem half_lt (exp : UInt64) (nonzero : ¬ exp = 0) : exp.toNat / 2 < exp.toNat := by
  have positive : exp.toNat ≠ 0 := fun zero => nonzero (UInt64.toNat_inj.mp zero)
  omega

def modExpLoop (mod result base exp : UInt64) : Option UInt64 :=
  if exp = 0 then some result
  else do
    let result ← (if exp &&& 1 = 1 then mulMod result base mod else some result)
    let base ← mulMod base base mod
    modExpLoop mod result base (exp >>> 1)
termination_by exp.toNat
decreasing_by exact shiftRight_toNat exp ▸ half_lt exp (by assumption)

def modExp (base exp mod : UInt64) : Option UInt64 :=
  if mod = 0 then none else modExpLoop mod 1 (base % mod) exp

def squareLoop (n : UInt64) : Nat → UInt64 → Option Bool
  | 0, _ => some false
  | rounds + 1, x => do
      let x ← mulMod x x n
      if x = n - 1 then some true else squareLoop n rounds x

def check (a d n : UInt64) (r : Nat) : Option Bool := do
  let x ← modExp a d n
  if x = 1 ∨ x = n - 1 then some true else squareLoop n (r - 1) x

-- The loop that writes n - 1 as d * 2 ^ r; on 0 it would not end.
def oddPart (d : UInt64) (r : Nat) : Option (UInt64 × Nat) :=
  if d = 0 then none
  else if d % 2 = 0 then oddPart (d / 2) (r + 1)
  else some (d, r)
termination_by d.toNat
decreasing_by exact half_toNat d ▸ half_lt d (by assumption)

def smallPrimes : List UInt64 := [2, 3, 5, 7, 11, 13, 17]

def testBases (d n : UInt64) (r : Nat) : List UInt64 → Option Bool
  | [] => some true
  | a :: bases =>
      if n ≤ a then testBases d n r bases
      else do
        if ← check a d n r then testBases d n r bases else some false

def isPrime (n : UInt64) : Option Bool :=
  if n < 2 then some false
  else
    match smallPrimes.find? fun p => n % p = 0 with
    | some p => some (n = p)
    | none => do
        let (d, r) ← oddPart (n - 1) 0
        testBases d n r smallPrimes

section Arithmetic

variable {a b mod : UInt64}

theorem mul64_toNat : (mul64 a b).1.toNat * 2 ^ 64 + (mul64 a b).2.toNat = a.toNat * b.toNat := by
  have factors : a.toNat < 2 ^ 64 ∧ b.toNat < 2 ^ 64 := ⟨a.toNat_lt, b.toNat_lt⟩
  have high : a.toNat * b.toNat / 2 ^ 64 < 2 ^ 64 :=
    (Nat.div_lt_iff_lt_mul (by decide)).mpr (Nat.mul_lt_mul'' factors.1 factors.2)
  simp only [mul64, UInt64.toNat_ofNat', Nat.mod_eq_of_lt high]
  exact Nat.div_add_mod' _ _

-- A reduced factor keeps the quotient within 64 bits, so Div64 does not panic.
theorem mulMod_eq (reduced : a < mod) :
    mulMod a b mod = some (UInt64.ofNat (a.toNat * b.toNat % mod.toNat)) := by
  have whole := mul64_toNat (a := a) (b := b)
  have less : a.toNat < mod.toNat := reduced
  have high : (mul64 a b).1.toNat < mod.toNat := by
    have bound : a.toNat * b.toNat < mod.toNat * 2 ^ 64 :=
      Nat.mul_lt_mul'' less b.toNat_lt
    omega
  have divisor : ¬ (mod = 0 ∨ mod ≤ (mul64 a b).1) := by
    rintro (zero | beyond)
    · simp [zero] at less
    · exact absurd (UInt64.le_iff_toNat_le.mp beyond) (by omega)
  simp only [mulMod, div64, if_neg divisor, whole]
  rfl

theorem toNat_remainder (value : Nat) (positive : 0 < mod.toNat) :
    (UInt64.ofNat (value % mod.toNat)).toNat = value % mod.toNat := by
  rw [UInt64.toNat_ofNat', Nat.mod_eq_of_lt ((Nat.mod_lt _ positive).trans mod.toNat_lt)]

theorem mulMod_residue (reduced : a < mod) : ∃ c, mulMod a b mod = some c ∧ c < mod ∧
    (c.toNat : ZMod mod.toNat) = a.toNat * b.toNat := by
  have less : a.toNat < mod.toNat := reduced
  have fits := @toNat_remainder mod (a.toNat * b.toNat) (by omega)
  refine ⟨_, mulMod_eq reduced, ?_, ?_⟩
  · rw [UInt64.lt_iff_toNat_lt, fits]
    exact Nat.mod_lt _ (by omega)
  · rw [fits, ZMod.natCast_mod, Nat.cast_mul]

theorem mulMod_comm : mulMod a b mod = mulMod b a mod := by
  rw [mulMod, mulMod, mul64, mul64, Nat.mul_comm]

theorem mulMod_toNat (reduced : a < mod ∨ b < mod) :
    (mulMod a b mod).map UInt64.toNat = some (a.toNat * b.toNat % mod.toNat) := by
  have either (a b : UInt64) (reduced : a < mod) :
      (mulMod a b mod).map UInt64.toNat = some (a.toNat * b.toNat % mod.toNat) := by
    have less : a.toNat < mod.toNat := reduced
    rw [mulMod_eq reduced, Option.map_some, toNat_remainder _ (by omega)]
  rcases reduced with first | second
  · exact either a b first
  · rw [mulMod_comm, Nat.mul_comm]
    exact either b a second

end Arithmetic

section Loops

variable {n : UInt64}

theorem bit_iff (exp : UInt64) : exp &&& 1 = 1 ↔ exp.toNat % 2 = 1 := by
  rw [← UInt64.toNat_inj]
  simp

theorem modExpLoop_residue (result base exp : UInt64) (reduced : result < n) (bounded : base < n) :
    ∃ x, modExpLoop n result base exp = some x ∧ x < n ∧
      (x.toNat : ZMod n.toNat) = result.toNat * base.toNat ^ exp.toNat := by
  induction size : exp.toNat using Nat.strong_induction_on generalizing result base exp with
  | _ size ih =>
    subst size
    rw [modExpLoop]
    by_cases zero : exp = 0
    · exact ⟨result, by simp [zero], reduced, by simp [zero]⟩
    · rw [if_neg zero]
      obtain ⟨square, squares, small, squared⟩ := mulMod_residue (b := base) bounded
      obtain ⟨product, multiplied, below, valued⟩ : ∃ product,
          (if exp &&& 1 = 1 then mulMod result base n else some result) = some product ∧
            product < n ∧
            (product.toNat : ZMod n.toNat) = result.toNat * base.toNat ^ (exp.toNat % 2) := by
        by_cases bit : exp &&& 1 = 1
        · rw [if_pos bit, (bit_iff exp).mp bit, pow_one]
          exact mulMod_residue reduced
        · have even : exp.toNat % 2 = 0 := by
            have odd := mt (bit_iff exp).mpr bit
            omega
          rw [if_neg bit, even]
          exact ⟨result, rfl, reduced, by simp⟩
      obtain ⟨x, ended, final, power⟩ := ih (exp >>> 1).toNat
        (shiftRight_toNat exp ▸ half_lt exp zero) product square (exp >>> 1) below small rfl
      refine ⟨x, ?_, final, ?_⟩
      · simp only [multiplied, squares, Option.bind_eq_bind, Option.bind_some, ended]
      · rw [power, valued, squared, shiftRight_toNat, ← pow_two, ← pow_mul, mul_assoc, ← pow_add,
          Nat.mod_add_div]

theorem modExp_residue (base exp : UInt64) (above : 1 < n) :
    ∃ x, modExp base exp n = some x ∧ x < n ∧
      (x.toNat : ZMod n.toNat) = (base.toNat : ZMod n.toNat) ^ exp.toNat := by
  have large : 1 < n.toNat := above
  have nonzero : ¬ n = 0 := by
    rintro rfl
    simp at large
  have reduced : base % n < n := by
    rw [UInt64.lt_iff_toNat_lt, UInt64.toNat_mod]
    exact Nat.mod_lt _ (by omega)
  obtain ⟨x, ended, final, power⟩ := modExpLoop_residue 1 (base % n) exp above reduced
  refine ⟨x, by rw [modExp, if_neg nonzero, ended], final, ?_⟩
  rw [power, UInt64.toNat_mod]
  simp

theorem modular_arithmetic_exact (mod : UInt64) :
    (2 ≤ mod → ∀ base exp,
      (modExp base exp mod).map UInt64.toNat = some (base.toNat ^ exp.toNat % mod.toNat)) ∧
    ∀ a b, a < mod ∨ b < mod → (mulMod a b mod).map UInt64.toNat = some (a.toNat * b.toNat % mod.toNat) := by
  refine ⟨fun large base exp => ?_, fun a b reduced => mulMod_toNat reduced⟩
  have above : 1 < mod := UInt64.lt_iff_toNat_lt.mpr (UInt64.le_iff_toNat_le.mp large)
  obtain ⟨x, powered, less, residue⟩ := modExp_residue base exp above
  have same : x.toNat % mod.toNat = base.toNat ^ exp.toNat % mod.toNat := by
    refine (ZMod.natCast_eq_natCast_iff' _ _ _).mp ?_
    rw [residue, Nat.cast_pow]
  have below : x.toNat < mod.toNat := less
  rw [powered, Option.map_some, ← same, Nat.mod_eq_of_lt below]

theorem modular_arithmetic_largest :
    (modExp 18446744073709551614 3 18446744073709551615).map UInt64.toNat = some 18446744073709551614 ∧
      (mulMod 6700417 18446744073709551615 18446744073709551557).map UInt64.toNat =
        some (6700417 * 18446744073709551615 % 18446744073709551557) :=
  ⟨by
    rw [(modular_arithmetic_exact 18446744073709551615).1 (by decide)]
    decide,
   (modular_arithmetic_exact 18446744073709551557).2 6700417 18446744073709551615 (by decide)⟩

theorem last_toNat (above : 1 < n) : (n - 1).toNat = n.toNat - 1 := by
  rw [UInt64.toNat_sub_of_le n 1 (UInt64.le_of_lt above)]
  rfl

theorem one_iff {x : UInt64} (above : 1 < n) (reduced : x < n) :
    x = 1 ↔ (x.toNat : ZMod n.toNat) = 1 := by
  have large : 1 < n.toNat := above
  have less : x.toNat < n.toNat := reduced
  rw [StrongTest.residue_eq_one large less, ← UInt64.toNat_inj]
  rfl

theorem last_iff {x : UInt64} (above : 1 < n) (reduced : x < n) :
    x = n - 1 ↔ (x.toNat : ZMod n.toNat) = -1 := by
  have large : 1 < n.toNat := above
  have less : x.toNat < n.toNat := reduced
  rw [StrongTest.residue_eq_neg_one large less, ← UInt64.toNat_inj, last_toNat above]

theorem squareLoop_spec (rounds : Nat) (x : UInt64) (above : 1 < n) (reduced : x < n) :
    ∃ met, squareLoop n rounds x = some met ∧ (met = true ↔
      ∃ i < rounds, (x.toNat : ZMod n.toNat) ^ 2 ^ (i + 1) = -1) := by
  induction rounds generalizing x with
  | zero => exact ⟨false, rfl, by simp⟩
  | succ rounds ih =>
    obtain ⟨square, squares, small, squared⟩ := mulMod_residue (b := x) reduced
    rw [← pow_two] at squared
    by_cases last : square = n - 1
    · refine ⟨true, by simp [squareLoop, squares, last], ?_⟩
      have minus := (last_iff above small).mp last
      simp only [true_iff]
      exact ⟨0, by omega, by rw [← minus, squared, pow_one]⟩
    · obtain ⟨met, looped, iff⟩ := ih square small
      refine ⟨met, by simp [squareLoop, squares, last, looped], ?_⟩
      rw [iff]
      constructor
      · rintro ⟨i, below, reached⟩
        refine ⟨i + 1, by omega, ?_⟩
        rw [← reached, squared, ← pow_mul, ← pow_succ']
      · rintro ⟨i, below, reached⟩
        cases i with
        | zero =>
          refine absurd ((last_iff above small).mpr ?_) last
          rw [squared, ← reached, pow_one]
        | succ i =>
          refine ⟨i, by omega, ?_⟩
          rw [← reached, squared, ← pow_mul, ← pow_succ']

theorem check_spec (a d : UInt64) {r : Nat} (above : 1 < n) (rounds : 0 < r) :
    ∃ passed, check a d n r = some passed ∧
      (passed = true ↔ StrongTest.Passes n.toNat a.toNat d.toNat r) := by
  obtain ⟨x, powered, reduced, power⟩ := modExp_residue a d above
  obtain ⟨met, looped, iff⟩ := squareLoop_spec (r - 1) x above reduced
  have steps : ∀ i, (x.toNat : ZMod n.toNat) ^ 2 ^ i =
      (a.toNat : ZMod n.toNat) ^ (d.toNat * 2 ^ i) := by
    intro i
    rw [power, pow_mul]
  by_cases start : x = 1 ∨ x = n - 1
  · refine ⟨true, by simp [check, powered, start], ?_⟩
    simp only [true_iff]
    rcases start with one | last
    · left
      rw [← power, (one_iff above reduced).mp one]
    · exact .inr ⟨0, rounds, by rw [← steps, pow_zero, pow_one, (last_iff above reduced).mp last]⟩
  · refine ⟨met, by simp [check, powered, start, looped], ?_⟩
    rw [iff]
    constructor
    · rintro ⟨i, below, reached⟩
      exact .inr ⟨i + 1, by omega, by rw [← steps, reached]⟩
    · rintro (one | ⟨i, below, reached⟩)
      · exact absurd (.inl ((one_iff above reduced).mpr (power.trans one))) start
      · cases i with
        | zero =>
          refine absurd (.inr ((last_iff above reduced).mpr ?_)) start
          rw [← reached, ← steps, pow_zero, pow_one]
        | succ i => exact ⟨i, by omega, by rw [steps, reached]⟩

theorem oddPart_spec (d : UInt64) (r : Nat) (nonzero : d ≠ 0) :
    ∃ odd k, oddPart d r = some (odd, r + k) ∧ odd.toNat % 2 = 1 ∧
      d.toNat = odd.toNat * 2 ^ k := by
  induction size : d.toNat using Nat.strong_induction_on generalizing d r with
  | _ size ih =>
    subst size
    have parity : d % 2 = 0 ↔ d.toNat % 2 = 0 := by
      rw [← UInt64.toNat_inj]
      rfl
    rw [oddPart, if_neg nonzero]
    by_cases even : d % 2 = 0
    · have twice : d.toNat % 2 = 0 := parity.mp even
      have positive : d.toNat ≠ 0 := fun zero => nonzero (UInt64.toNat_inj.mp zero)
      have rest : d / 2 ≠ 0 := by
        intro zero
        have none : (d / 2).toNat = 0 := by rw [zero]; rfl
        rw [half_toNat] at none
        omega
      obtain ⟨odd, k, found, uneven, split⟩ :=
        ih (d / 2).toNat (half_toNat d ▸ half_lt d nonzero) (d / 2) (r + 1) rest rfl
      refine ⟨odd, k + 1, by rw [if_pos even, found, add_right_comm, add_assoc], uneven, ?_⟩
      rw [half_toNat] at split
      rw [pow_succ, ← mul_assoc]
      omega
    · refine ⟨d, 0, by rw [if_neg even, add_zero], ?_, by simp⟩
      have odd := mt parity.mpr even
      omega

theorem testBases_spec (d : UInt64) (r : Nat) (above : 1 < n) (rounds : 0 < r)
    (tested : List UInt64) (small : ∀ a ∈ tested, a < n) :
    ∃ passed, testBases d n r tested = some passed ∧
      (passed = true ↔ ∀ a ∈ tested, StrongTest.Passes n.toNat a.toNat d.toNat r) := by
  induction tested with
  | nil => exact ⟨true, rfl, by simp⟩
  | cons a rest ih =>
    obtain ⟨passed, checked, iff⟩ := check_spec a d above rounds
    obtain ⟨others, followed, all⟩ := ih fun b member => small b (by simp [member])
    have tried : ¬ n ≤ a := UInt64.not_le.mpr (small a (by simp))
    cases passed with
    | false =>
      refine ⟨false, by simp [testBases, tried, checked], ?_⟩
      simp only [Bool.false_eq_true, false_iff] at iff ⊢
      exact fun every => iff (every a (by simp))
    | true =>
      refine ⟨others, by simp [testBases, checked, followed], ?_⟩
      have first := iff.mp rfl
      simp [all, first]

end Loops

section Outcome

variable (n : UInt64)

theorem smallPrimes_bases : smallPrimes.map UInt64.toNat = StrongTest.bases := by
  decide

theorem smallPrimes_prime : ∀ p ∈ smallPrimes, p.toNat.Prime := by
  simp only [smallPrimes, List.forall_mem_cons, UInt64.reduceToNat]
  norm_num

theorem coprime_of_missed {n : Nat} (missed : ∀ p ∈ smallPrimes, ¬ p.toNat ∣ n) : Nat.Coprime n 510510 := by
  have product : StrongTest.bases.prod = 510510 := by decide
  rw [← product, Nat.coprime_list_prod_right_iff, ← smallPrimes_bases]
  intro prime member
  obtain ⟨p, listed, rfl⟩ := List.mem_map.mp member
  exact ((smallPrimes_prime p listed).coprime_iff_not_dvd.mpr (missed p listed)).symm

theorem coprime_of_find (missed : (smallPrimes.find? fun p => n % p = 0) = none) :
    Nat.Coprime n.toNat 510510 := by
  refine coprime_of_missed fun p listed divides => ?_
  have zero : n % p = 0 := by
    rw [← UInt64.toNat_inj]
    exact Nat.mod_eq_zero_of_dvd divides
  exact absurd (decide_eq_true zero) (List.find?_eq_none.mp missed p listed)

theorem above_of_coprime (two : 2 ≤ n.toNat) (coprime : Nat.Coprime n.toNat 510510) :
    17 < n.toNat := by
  have shared : ∀ m, m < 18 → 2 ≤ m → ¬ Nat.Coprime m 510510 := by decide
  by_contra small
  exact shared n.toNat (by omega) two coprime

theorem isPrime_outcome : (n.toNat < 2 ∧ isPrime n = some false) ∨
    (∃ p ∈ smallPrimes, p.toNat ∣ n.toNat ∧ isPrime n = some (decide (n = p))) ∨
    (Nat.Coprime n.toNat 510510 ∧ ∃ d r passed, n.toNat - 1 = d * 2 ^ r ∧ d % 2 = 1 ∧
      isPrime n = some passed ∧
      (passed = true ↔ ∀ a ∈ StrongTest.bases, StrongTest.Passes n.toNat a d r)) := by
  by_cases tiny : n < 2
  · exact .inl ⟨tiny, by rw [isPrime, if_pos tiny]⟩
  have two : 2 ≤ n.toNat := Nat.le_of_not_lt tiny
  cases found : smallPrimes.find? fun p => n % p = 0 with
  | some p =>
    refine .inr (.inl ⟨p, List.mem_of_find?_eq_some found, ?_, ?_⟩)
    · have zero : n % p = 0 := by simpa using List.find?_some found
      rw [← UInt64.toNat_inj] at zero
      exact Nat.dvd_of_mod_eq_zero zero
    · rw [isPrime, if_neg tiny, found]
  | none =>
    have coprime := coprime_of_find n found
    have large := above_of_coprime n two coprime
    have above : 1 < n := UInt64.lt_iff_toNat_lt.mpr (Nat.lt_of_lt_of_le (by decide) large.le)
    have nonzero : n - 1 ≠ 0 := by
      intro zero
      have none : (n - 1).toNat = 0 := by rw [zero]; rfl
      rw [last_toNat above] at none
      omega
    obtain ⟨d, r, halved, odd, split⟩ := oddPart_spec (n - 1) 0 nonzero
    rw [last_toNat above] at split
    have uneven := StrongTest.odd_of_coprime coprime
    obtain ⟨k, positive, _⟩ := StrongTest.halved odd
      (show d.toNat * 2 ^ r = n.toNat / 2 * 2 by omega)
    have small : ∀ a ∈ smallPrimes, a < n := by
      intro a member
      have bounded : ∀ a ∈ smallPrimes, a ≤ 17 := by simp [smallPrimes]
      exact UInt64.lt_of_le_of_lt (bounded a member) (UInt64.lt_iff_toNat_lt.mpr large)
    obtain ⟨passed, tested, iff⟩ :=
      testBases_spec d r above (by omega) smallPrimes small
    refine .inr (.inr ⟨coprime, d.toNat, r, passed, split, odd, ?_, ?_⟩)
    · simp [isPrime, tiny, found, halved, tested]
    · rw [iff, ← smallPrimes_bases]
      simp

end Outcome

theorem isPrime_prime (n : UInt64) (prime : n.toNat.Prime) : isPrime n = some true := by
  rcases isPrime_outcome n with ⟨tiny, _⟩ | ⟨p, member, divides, answer⟩ |
    ⟨coprime, d, r, passed, split, odd, answer, iff⟩
  · exact absurd prime.two_le (by omega)
  · have two : ∀ p ∈ smallPrimes, p.toNat ≠ 1 := fun p member => (smallPrimes_prime p member).ne_one
    have same := (prime.eq_one_or_self_of_dvd _ divides).resolve_left (two p member)
    rw [answer, decide_eq_true (UInt64.toNat_inj.mp same.symm)]
  · have missed : ∀ a ∈ StrongTest.bases, ¬ n.toNat ∣ a := by
      intro a member divides
      have factors : ∀ a ∈ StrongTest.bases, a ∣ 510510 := by decide
      exact prime.one_lt.ne' (coprime.eq_one_of_dvd (divides.trans (factors a member)))
    have every := fun a member => StrongTest.passes_of_prime prime split (missed a member)
    rw [answer, iff.mpr every]

theorem below_million_accepted : Nat.Prime (999983 : UInt64).toNat ∧ isPrime 999983 = some true := by
  have prime : Nat.Prime (999983 : UInt64).toNat := by
    change Nat.Prime 999983
    norm_num
  exact ⟨prime, isPrime_prime 999983 prime⟩

-- Numbers that are no strong pseudoprime to the seven bases: small ones, those that the trial division settles, and
-- a large prime times a small cofactor.
def WithinScreens (n : Nat) : Prop :=
  n < 2 ^ 20 ∨ (∃ p ∈ smallPrimes, p.toNat ∣ n) ∨
    ∃ s q, q.Prime ∧ n = s * q ∧ 1 < s ∧ s < 2 ^ 12 ∧ 2 ^ 12 < q

theorem smallPrimes_missed {n : Nat} (pseudoprime : StrongTest.Pseudoprime StrongTest.bases n) :
    ∀ p ∈ smallPrimes, ¬ p.toNat ∣ n := by
  intro p member
  refine pseudoprime.not_dvd (smallPrimes_prime p member) ?_
  rw [← smallPrimes_bases]
  exact List.mem_map_of_mem member

theorem isPrime_pseudoprime (n : UInt64) (composite : ¬ n.toNat.Prime) :
    isPrime n = some true ↔ StrongTest.Pseudoprime StrongTest.bases n.toNat := by
  rcases isPrime_outcome n with ⟨tiny, answer⟩ | ⟨p, member, divides, answer⟩ |
    ⟨coprime, d, r, passed, split, odd, answer, iff⟩
  · rw [answer]
    exact ⟨fun accepted => (by cases accepted), fun pseudoprime => absurd pseudoprime.1 (by omega)⟩
  · have prime := smallPrimes_prime p member
    rw [answer, Option.some.injEq, decide_eq_true_eq]
    constructor
    · rintro rfl
      exact absurd prime composite
    · intro pseudoprime
      exact absurd divides (smallPrimes_missed pseudoprime p member)
  · rw [answer, Option.some.injEq, iff]
    constructor
    · intro passes
      have above : 1 < n.toNat := by
        by_contra small
        have zero : n.toNat - 1 = 0 := by omega
        rw [split, Nat.mul_eq_zero] at zero
        rcases zero with zero | zero
        · simp [zero] at odd
        · exact absurd zero (by positivity)
      exact ⟨above, composite, d, r, split, odd, passes⟩
    · rintro ⟨_, _, e, k, also, uneven, passes⟩
      obtain ⟨rfl, rfl⟩ := StrongTest.split_unique odd uneven (split.symm.trans also)
      exact passes

theorem screens_pseudoprime {n : Nat} (screens : WithinScreens n) : ¬ StrongTest.Pseudoprime StrongTest.bases n := by
  intro pseudoprime
  have missed := smallPrimes_missed pseudoprime
  have coprime := coprime_of_missed missed
  obtain ⟨above, composite, d, r, split, odd, passes⟩ := pseudoprime
  rcases screens with small | ⟨p, member, divides⟩ | ⟨s, q, prime, factored, _, small, large⟩
  · have two : n ≠ 2 := fun two => composite (two ▸ Nat.prime_two)
    exact composite (StrongTest.prime_below small (by omega) coprime split odd passes)
  · exact missed p member divides
  · exact composite (StrongTest.prime_of_cofactor prime factored above coprime small large
      fun a member => (passes a member).fermat split)

theorem isPrime_accepts_prime (n : UInt64) :
    ((isPrime n = some true → n.toNat.Prime) ↔ ¬ StrongTest.Pseudoprime StrongTest.bases n.toNat) ∧
      (WithinScreens n.toNat → isPrime n = some true → n.toNat.Prime) := by
  have exact_ : (isPrime n = some true → n.toNat.Prime) ↔ ¬ StrongTest.Pseudoprime StrongTest.bases n.toNat := by
    by_cases prime : n.toNat.Prime
    · exact ⟨fun _ pseudoprime => pseudoprime.2.1 prime, fun _ _ => prime⟩
    · rw [← isPrime_pseudoprime n prime]
      exact ⟨fun only accepted => prime (only accepted), fun refused accepted => absurd accepted refused⟩
  exact ⟨exact_, fun screens => exact_.mpr (screens_pseudoprime screens)⟩

theorem above_million_prime : (WithinScreens (1000003 : UInt64).toNat ∧
    isPrime 1000003 = some true ∧ (1000003 : UInt64).toNat.Prime) ∧
    ¬ StrongTest.Pseudoprime StrongTest.bases (16850989 : UInt64).toNat := by
  have screens : WithinScreens (1000003 : UInt64).toNat := .inl (by decide)
  have accepted : isPrime 1000003 = some true := by decide +kernel
  have refused : isPrime 16850989 = some false := by decide +kernel
  refine ⟨⟨screens, accepted, (isPrime_accepts_prime 1000003).2 screens accepted⟩, ?_⟩
  exact (isPrime_accepts_prime 16850989).1.mp fun accepted => by simp [refused] at accepted

-- A product of two primes that is a strong probable prime to all seven bases.
theorem pseudoprime_accepted :
    isPrime 341550071728321 = some true ∧ ¬ (341550071728321 : UInt64).toNat.Prime := by
  have factored : (341550071728321 : UInt64).toNat = 10670053 * 32010157 := by decide
  exact ⟨by decide +kernel, factored ▸ Nat.not_prime_mul (by decide) (by decide)⟩

end Ikkat
