import Mathlib.Data.Nat.Prime.Basic
import Ikkat.Shared.StrongTest

set_option autoImplicit false

namespace StrongTest

-- The checks below are evaluated by the kernel over long ranges. They use the operations on
-- numerals that it computes natively, and `Nat.rec` itself for the loops.
def below (test : Nat → Bool) (n : Nat) : Bool :=
  Nat.rec true (fun k rest => and (test k) rest) n

theorem below_sound {test : Nat → Bool} {n : Nat} (checked : below test n = true) {k : Nat}
    (small : k < n) : test k = true := by
  induction n with
  | zero => omega
  | succ n ih =>
    have parts : test n = true ∧ below test n = true := by
      simpa [below] using checked
    rcases Nat.lt_succ_iff_lt_or_eq.mp small with earlier | rfl
    · exact ih parts.2 earlier
    · exact parts.1

def atFirst (test result : Nat → Bool) (n count : Nat) : Bool :=
  Nat.rec true (fun k rest => cond (test (Nat.sub n k)) (result (Nat.sub n k)) rest) count

theorem atFirst_sound {test result : Nat → Bool} {n count : Nat}
    (checked : atFirst test result n count = true) (bounded : count ≤ n) {j : Nat}
    (first : n - count < j) (last : j ≤ n) (met : test j = true)
    (earlier : ∀ i, n - count < i → i < j → test i = false) : result j = true := by
  induction count with
  | zero => omega
  | succ count ih =>
    have unfolded : cond (test (n - count)) (result (n - count))
        (atFirst test result n count) = true := checked
    by_cases here : j = n - count
    · rw [here] at met ⊢
      simpa [met] using unfolded
    · have passed : test (n - count) = false := earlier _ (by omega) (by omega)
      rw [passed] at unfolded
      exact ih unfolded (by omega) (by omega) fun i above => earlier i (by omega)

def product : Nat → Nat → Nat
  | 0, start => start
  | bits + 1, start => product bits start * product bits (start + 2 ^ bits)

theorem product_prime {bits start q : Nat} (prime : q.Prime) (positive : 0 < start)
    (divides : q ∣ product bits start) : q < start + 2 ^ bits := by
  induction bits generalizing start with
  | zero =>
    have bound := Nat.le_of_dvd positive divides
    omega
  | succ bits ih =>
    rw [pow_succ]
    rcases prime.dvd_mul.mp divides with low | high
    · have bound := ih positive low
      omega
    · have bound := ih (Nat.lt_add_right _ positive) high
      omega

def bases : List Nat := [2, 3, 5, 7, 11, 13, 17]

def residue (a e n : Nat) : Nat := Nat.mod (Nat.pow a e) n

theorem residue_cast (a e n : Nat) : (residue a e n : ZMod n) = (a : ZMod n) ^ e := by
  have cast : ((a ^ e % n : Nat) : ZMod n) = (a : ZMod n) ^ e := by
    rw [ZMod.natCast_mod, Nat.cast_pow]
  exact cast

section Cofactors

-- Every prime factor of a number that passes Fermat's test to all bases divides this number
-- at the cofactor.
def common (s : Nat) : Nat :=
  bases.foldr (fun a g => Nat.gcd (Nat.pred (Nat.pow a (Nat.pred s))) g) 0

def smooth (bits s : Nat) : Bool :=
  or (Nat.ble s 1) (or (not (Nat.beq (Nat.gcd s 510510) 1))
    (Nat.beq (Nat.mod (Nat.pow (Nat.mod (product bits 1) (common s)) 128) (common s)) 0))

theorem common_dvd {q s : Nat} (units : ∀ a ∈ bases, (a : ZMod q) ^ (s - 1) = 1) :
    q ∣ common s := by
  unfold common
  generalize bases = tested at units
  induction tested with
  | nil => simp
  | cons a rest ih =>
    have head : q ∣ a ^ (s - 1) - 1 := by
      rcases Nat.eq_zero_or_pos (a ^ (s - 1)) with zero | positive
      · simp [zero]
      · rw [← ZMod.natCast_eq_zero_iff, Nat.cast_sub positive, Nat.cast_pow, Nat.cast_one,
          units a (by simp), sub_self]
    exact Nat.dvd_gcd head (ih fun b member => units b (by simp [member]))

theorem cofactors_smooth : below (smooth 12) (2 ^ 12) = true := by
  decide +kernel

theorem prime_of_cofactor {n s q : Nat} (prime : q.Prime) (factored : n = s * q)
    (above : 1 < n) (coprime : Nat.Coprime n 510510) (small : s < 2 ^ 12) (large : 2 ^ 12 < q)
    (fermat : ∀ a ∈ bases, (a : ZMod n) ^ (n - 1) = 1) : n.Prime := by
  have divides : q ∣ common s :=
    common_dvd fun a member => pow_cofactor prime factored above (fermat a member)
  have cofactor : s ≤ 1 := by
    by_contra two
    have checked := below_sound cofactors_smooth small
    have inner : Nat.gcd s 510510 = 1 :=
      Nat.Coprime.coprime_dvd_left ⟨q, factored⟩ coprime
    have power : common s ∣ (product 12 1 % common s) ^ 128 := by
      simp only [smooth, inner, Bool.or_eq_true, Nat.ble_eq, Nat.beq_eq]
        at checked
      rcases checked with one | absurdity | zero
      · exact absurd one two
      · exact absurd absurdity (by decide)
      · exact Nat.dvd_of_mod_eq_zero zero
    have inside : q ∣ product 12 1 :=
      (Nat.dvd_mod_iff divides).mp (prime.dvd_of_dvd_pow (divides.trans power))
    have bound := product_prime prime one_pos inside
    omega
  have one : s = 1 := by
    rcases Nat.le_one_iff_eq_zero_or_eq_one.mp cofactor with zero | one
    · simp [factored, zero] at above
    · exact one
  simpa [factored, one] using prime

end Cofactors

section Range

def strays (n a e : Nat) : Bool :=
  and (not (Nat.beq (residue a e n) 1)) (not (Nat.beq (residue a e n) (Nat.pred n)))

def refused (n : Nat) : Bool :=
  or (not (Nat.beq (Nat.gcd n 510510) 1)) (or (bases.any fun a => strays n a (Nat.div n 2))
    (and (Nat.beq (Nat.mod n 4) 1) (bases.any fun a =>
      and (Nat.beq (residue a (Nat.div n 2) n) 1) (strays n a (Nat.div n 4)))))

variable {n e d r p : Nat}

theorem strays_sound {a : Nat} (above : 1 < n) (strayed : strays n a e = true) :
    (a : ZMod n) ^ e ≠ 1 ∧ (a : ZMod n) ^ e ≠ -1 := by
  have reduced : residue a e n < n := Nat.mod_lt _ (by omega)
  rw [← residue_cast, Ne, residue_eq_one above reduced, Ne, residue_eq_neg_one above reduced]
  have parts : ¬ residue a e n = 1 ∧ ¬ residue a e n = n - 1 := by
    simpa [strays, ← Bool.not_eq_true] using strayed
  exact parts

theorem odd_of_coprime (coprime : Nat.Coprime n 510510) : n % 2 = 1 :=
  Nat.odd_iff.mp (Nat.coprime_two_right.mp
    (coprime.coprime_dvd_right (by decide : 2 ∣ 510510)))

theorem refused_sound (refuses : refused n = true) (above : 2 < n)
    (coprime : Nat.Coprime n 510510) (split : n - 1 = d * 2 ^ r) (odd : d % 2 = 1)
    (passes : ∀ a ∈ bases, Passes n a d r) : False := by
  have uneven := odd_of_coprime coprime
  obtain ⟨k, rfl, half⟩ : ∃ k, r = k + 1 ∧ n / 2 = d * 2 ^ k := halved odd (by omega)
  have roots : ∀ a ∈ bases, (a : ZMod n) ^ (n / 2) = 1 ∨ (a : ZMod n) ^ (n / 2) = -1 := by
    intro a member
    rw [half]
    exact (passes a member).root above (split ▸ (passes a member).fermat split)
  simp only [refused, Bool.or_eq_true, Bool.and_eq_true, Bool.not_eq_true', List.any_eq_true,
    Nat.beq_eq] at refuses
  rcases refuses with shared | ⟨a, member, strayed⟩ | ⟨quarter, a, member, one, strayed⟩
  · exact absurd coprime (by simpa [← Bool.not_eq_true] using shared)
  · have missed := strays_sound (by omega) strayed
    rcases roots a member with one | minus
    · exact missed.1 one
    · exact missed.2 minus
  · -- the exponent can be halved once more, and 1 has no other square root on the way
    have missed := strays_sound (by omega) strayed
    have mod : n % 4 = 1 := quarter
    obtain ⟨m, rfl, fourth⟩ : ∃ m, k = m + 1 ∧ n / 4 = d * 2 ^ m :=
      halved odd (by rw [← half]; omega)
    have top : (a : ZMod n) ^ (d * 2 ^ (m + 1)) = 1 := by
      rw [← half, ← residue_cast]
      exact (residue_eq_one (by omega) (Nat.mod_lt _ (by omega))).mpr one
    rcases (passes a member).root above top with one | minus
    · exact missed.1 (by rw [show Nat.div n 4 = n / 4 from rfl, fourth]; exact one)
    · exact missed.2 (by rw [show Nat.div n 4 = n / 4 from rfl, fourth]; exact minus)

def unit (p j : Nat) : Bool :=
  and (Nat.beq (residue 2 j p) 1) (Nat.beq (residue 3 j p) 1)

def screened (bound p : Nat) : Bool :=
  or (not (Nat.beq (Nat.gcd p 510510) 1))
    (atFirst (unit p)
      (fun j => below (fun i => refused (Nat.mul p (Nat.succ (Nat.mul (Nat.succ i) j))))
        (Nat.div bound (Nat.mul p j)))
      p p)

theorem unit_iff {j : Nat} (above : 1 < p) :
    unit p j = true ↔ (((2 : Nat) : ZMod p), ((3 : Nat) : ZMod p)) ^ j = 1 := by
  have reduced : ∀ a, residue a j p < p := fun a => Nat.mod_lt _ (by omega)
  rw [Prod.pow_mk, Prod.mk_eq_one, ← residue_cast, ← residue_cast,
    residue_eq_one above (reduced 2), residue_eq_one above (reduced 3)]
  simp [unit]

-- 2 and 3 together have an order modulo `p`; it divides `p - 1` and the cofactor less 1.
theorem screened_sound {bound m : Nat} (checked : screened bound p = true) (prime : p.Prime)
    (apart : Nat.Coprime p 510510) (cofactor : unit p (m - 1) = true) (above : 1 < m)
    (small : p * m < bound) : refused (p * m) = true := by
  have two := prime.two_le
  rw [unit_iff two] at cofactor
  have whole : (((2 : Nat) : ZMod p), ((3 : Nat) : ZMod p)) ^ (p - 1) = 1 := by
    have : Fact p.Prime := ⟨prime⟩
    have nonzero : ∀ a, a ∣ 510510 → ((a : Nat) : ZMod p) ≠ 0 := by
      intro a divides zero
      have shared := (ZMod.natCast_eq_zero_iff a p).mp zero
      exact absurd (Nat.Coprime.eq_one_of_dvd apart (shared.trans divides)) (by omega)
    rw [Prod.mk_eq_one]
    exact ⟨ZMod.pow_card_sub_one_eq_one (nonzero 2 (by decide)),
      ZMod.pow_card_sub_one_eq_one (nonzero 3 (by decide))⟩
  generalize pairing : (((2 : Nat) : ZMod p), ((3 : Nat) : ZMod p)) = pair at cofactor whole
  have positive : 0 < orderOf pair :=
    orderOf_pos_iff.mpr (isOfFinOrder_iff_pow_eq_one.mpr ⟨p - 1, by omega, whole⟩)
  have ordered : orderOf pair ≤ p - 1 := orderOf_le_of_pow_eq_one (by omega) whole
  obtain ⟨c, multiple⟩ := orderOf_dvd_of_pow_eq_one cofactor
  simp only [screened, apart, Bool.or_eq_true] at checked
  have searched := checked.resolve_left (by decide)
  have met : unit p (orderOf pair) = true := by
    rw [unit_iff two, pairing]
    exact pow_orderOf_eq_one pair
  have earlier : ∀ i, p - p < i → i < orderOf pair → unit p i = false := by
    intro i first before
    rw [← Bool.not_eq_true, unit_iff two, pairing]
    exact pow_ne_one_of_lt_orderOf (by omega) before
  have listed := atFirst_sound searched le_rfl (by omega) (by omega) met earlier
  cases c with
  | zero => omega
  | succ i =>
    have counted : m = (i + 1) * orderOf pair + 1 := by
      rw [mul_comm]
      omega
    have within : i < bound / (p * orderOf pair) := by
      exact (Nat.le_div_iff_mul_le (by positivity)).mpr (by nlinarith)
    have refuses := below_sound listed within
    rw [counted]
    exact refuses

theorem range_screened : below (screened (2 ^ 20)) (2 ^ 10) = true := by
  decide +kernel

theorem prime_below (small : n < 2 ^ 20) (above : 2 < n)
    (coprime : Nat.Coprime n 510510) (split : n - 1 = d * 2 ^ r) (odd : d % 2 = 1)
    (passes : ∀ a ∈ bases, Passes n a d r) : n.Prime := by
  by_contra composite
  have prime : n.minFac.Prime := Nat.minFac_prime (by omega)
  have factored : n = n.minFac * (n / n.minFac) := (Nat.mul_div_cancel' n.minFac_dvd).symm
  have square : n.minFac ^ 2 ≤ n := Nat.minFac_sq_le_self (by omega) composite
  generalize n.minFac = p at prime factored square
  generalize n / p = m at factored
  have bounded : p < 2 ^ 10 := by nlinarith
  have two := prime.two_le
  have units : unit p (m - 1) = true := by
    rw [unit_iff two, Prod.mk_eq_one]
    have flipped : n = m * p := by rw [factored, mul_comm]
    exact ⟨pow_cofactor prime flipped (by omega) ((passes 2 (by decide)).fermat split),
      pow_cofactor prime flipped (by omega) ((passes 3 (by decide)).fermat split)⟩
  have refuses := screened_sound (below_sound range_screened bounded) prime
    (coprime.coprime_dvd_left ⟨m, factored⟩) units (by nlinarith) (factored ▸ small)
  rw [← factored] at refuses
  exact refused_sound refuses above coprime split odd passes

end Range

end StrongTest
