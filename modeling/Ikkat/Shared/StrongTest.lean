import Mathlib.FieldTheory.Finite.Basic

set_option autoImplicit false

namespace StrongTest

-- The strong test of `n` to the base `a`, for `n - 1 = d * 2 ^ r`.
def Passes (n a d r : Nat) : Prop :=
  (a : ZMod n) ^ d = 1 ∨ ∃ i < r, (a : ZMod n) ^ (d * 2 ^ i) = -1

section Residues

variable {n x : Nat}

theorem residue_eq_one (above : 1 < n) (reduced : x < n) : (x : ZMod n) = 1 ↔ x = 1 := by
  have one : ((1 : Nat) : ZMod n) = 1 := Nat.cast_one
  rw [← one, ZMod.natCast_eq_natCast_iff', Nat.mod_eq_of_lt reduced, Nat.mod_eq_of_lt above]

theorem residue_eq_neg_one (above : 1 < n) (reduced : x < n) : (x : ZMod n) = -1 ↔ x = n - 1 := by
  have minus : ((n - 1 : Nat) : ZMod n) = -1 := by
    rw [Nat.cast_sub above.le]
    simp
  rw [← minus, ZMod.natCast_eq_natCast_iff', Nat.mod_eq_of_lt reduced,
    Nat.mod_eq_of_lt (by omega)]

end Residues

section Prime

variable {n a d r : Nat}

-- Going down from Fermat's 1 by square roots, the first value that is not 1 is -1.
theorem root_chain {Field : Type} [CommRing Field] [NoZeroDivisors Field] {x : Field} (r : Nat)
    (top : x ^ 2 ^ r = 1) : x = 1 ∨ ∃ i < r, x ^ 2 ^ i = -1 := by
  induction r with
  | zero => exact .inl (by simpa using top)
  | succ r ih =>
    have squared : (x ^ 2 ^ r) * (x ^ 2 ^ r) = 1 := by
      rw [← pow_two, ← pow_mul, ← pow_succ, top]
    rcases mul_self_eq_one_iff.mp squared with one | minus
    · rcases ih one with start | ⟨i, below, reached⟩
      · exact .inl start
      · exact .inr ⟨i, by omega, reached⟩
    · exact .inr ⟨r, by omega, minus⟩

theorem passes_of_prime (prime : n.Prime) (split : n - 1 = d * 2 ^ r) (missed : ¬ n ∣ a) :
    Passes n a d r := by
  have : Fact n.Prime := ⟨prime⟩
  have nonzero : (a : ZMod n) ≠ 0 := fun zero => missed ((ZMod.natCast_eq_zero_iff a n).mp zero)
  have fermat : ((a : ZMod n) ^ d) ^ 2 ^ r = 1 := by
    rw [← pow_mul, ← split, ZMod.pow_card_sub_one_eq_one nonzero]
  rcases root_chain r fermat with one | ⟨i, below, minus⟩
  · exact .inl one
  · exact .inr ⟨i, below, by rw [pow_mul, minus]⟩

end Prime

section Necessary

variable {n a d r : Nat}

theorem pow_after_minus {i j : Nat} (before : i < j) (minus : (a : ZMod n) ^ (d * 2 ^ i) = -1) :
    (a : ZMod n) ^ (d * 2 ^ j) = 1 := by
  obtain ⟨gap, rfl⟩ := Nat.exists_eq_add_of_lt before
  have even : Even (2 ^ (gap + 1)) := Nat.even_pow.mpr ⟨even_two, by omega⟩
  rw [add_assoc, pow_add, ← mul_assoc, pow_mul, minus, even.neg_one_pow]

theorem Passes.fermat (passes : Passes n a d r) (split : n - 1 = d * 2 ^ r) : (a : ZMod n) ^ (n - 1) = 1 := by
  rw [split]
  rcases passes with one | ⟨i, below, minus⟩
  · rw [pow_mul, one, one_pow]
  · exact pow_after_minus below minus

theorem Passes.root {i : Nat} (passes : Passes n a d r) (above : 2 < n) (one : (a : ZMod n) ^ (d * 2 ^ (i + 1)) = 1) :
    (a : ZMod n) ^ (d * 2 ^ i) = 1 ∨ (a : ZMod n) ^ (d * 2 ^ i) = -1 := by
  rcases passes with start | ⟨j, _, minus⟩
  · left
    rw [pow_mul, start, one_pow]
  · rcases lt_trichotomy j i with before | rfl | after
    · exact .inl (pow_after_minus before minus)
    · exact .inr minus
    · obtain ⟨gap, rfl⟩ := Nat.exists_eq_add_of_lt after
      have same : (-1 : ZMod n) = 1 := by
        rw [← minus, add_right_comm, pow_add, ← mul_assoc, pow_mul, one, one_pow]
      have : Fact (2 < n) := ⟨above⟩
      exact absurd same ZMod.neg_one_ne_one

theorem pow_factor {q : Nat} (divides : q ∣ n) (fermat : (a : ZMod n) ^ (n - 1) = 1) : (a : ZMod q) ^ (n - 1) = 1 := by
  have mapped := congrArg (ZMod.castHom divides (ZMod q)) fermat
  rwa [map_pow, map_natCast, map_one] at mapped

theorem factor_ne_zero {q : Nat} (prime : q.Prime) (divides : q ∣ n) (above : 1 < n)
    (fermat : (a : ZMod n) ^ (n - 1) = 1) : (a : ZMod q) ≠ 0 := by
  have : Fact q.Prime := ⟨prime⟩
  have reduced := pow_factor divides fermat
  intro zero
  rw [zero, zero_pow (by omega)] at reduced
  exact zero_ne_one reduced

theorem pow_cofactor {q s : Nat} (prime : q.Prime) (factored : n = s * q) (above : 1 < n)
    (fermat : (a : ZMod n) ^ (n - 1) = 1) : (a : ZMod q) ^ (s - 1) = 1 := by
  have : Fact q.Prime := ⟨prime⟩
  have divides : q ∣ n := ⟨s, by rw [factored, mul_comm]⟩
  have reduced := pow_factor divides fermat
  have nonzero := factor_ne_zero prime divides above fermat
  have positive : 0 < s := Nat.pos_of_ne_zero fun zero => by simp [factored, zero] at above
  have exponent : n - 1 = (q - 1) * s + (s - 1) := by
    have whole : (q - 1) * s + s = s * q := by
      rw [← Nat.succ_mul, Nat.succ_eq_add_one, Nat.sub_add_cancel prime.one_le, mul_comm]
    omega
  rwa [exponent, pow_add, pow_mul, ZMod.pow_card_sub_one_eq_one nonzero, one_pow, one_mul]
    at reduced

end Necessary

section Pseudoprime

variable {n d e r k : Nat}

theorem halved (odd : d % 2 = 1) (even : d * 2 ^ r = e * 2) :
    ∃ k, r = k + 1 ∧ e = d * 2 ^ k := by
  cases r with
  | zero => omega
  | succ k =>
    rw [pow_succ, ← mul_assoc] at even
    exact ⟨k, rfl, by omega⟩

theorem split_unique (odd : d % 2 = 1) (uneven : e % 2 = 1) (same : d * 2 ^ r = e * 2 ^ k) : d = e ∧ r = k := by
  induction k generalizing r with
  | zero =>
    cases r with
    | zero => exact ⟨by simpa using same, rfl⟩
    | succ r =>
      rw [pow_succ, ← mul_assoc] at same
      omega
  | succ k ih =>
    obtain ⟨r, rfl, half⟩ := halved odd (same.trans (by rw [pow_succ, mul_assoc]))
    obtain ⟨first, second⟩ := ih half.symm
    exact ⟨first, by rw [second]⟩

-- A composite number that passes the strong test to every base of the list.
def Pseudoprime (tested : List Nat) (n : Nat) : Prop :=
  1 < n ∧ ¬ n.Prime ∧ ∃ d r, n - 1 = d * 2 ^ r ∧ d % 2 = 1 ∧ ∀ a ∈ tested, Passes n a d r

theorem Pseudoprime.not_dvd {tested : List Nat} (pseudoprime : Pseudoprime tested n) {q : Nat} (prime : q.Prime)
    (member : q ∈ tested) : ¬ q ∣ n := by
  obtain ⟨above, _, d, r, split, _, passes⟩ := pseudoprime
  intro divides
  exact factor_ne_zero prime divides above ((passes q member).fermat split) (CharP.cast_eq_zero (ZMod q) q)

end Pseudoprime

end StrongTest
