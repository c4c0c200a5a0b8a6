import GroupCommit.Proofs.Checksum.Register
import Mathlib.Data.Nat.GCD.Basic
import Mathlib.Dynamics.PeriodicPts.Defs
import Mathlib.Tactic.NormNum.Prime
import Mathlib.Tactic.Ring

/-!
# The period of the checksum

Zero bytes only shift the register, so the checksum of zeros is a question about how often the
register can be shifted before it is the same again. The answer is `2 ^ 32 - 1`: all registers but
zero lie on one cycle.

Counting that far is out of the question. But a register is a polynomial, with its top bit as the
constant coefficient, and a shift multiplies it by the variable. Hence the register after `n` shifts is
a product (`Crc32.iterate_shift_eq_product`), and the power of the variable that this takes is computed with a
few squarings (`Crc32.power_eq`). A register that recurs after `2 ^ 32 - 1` shifts, but not after a
prime fraction of them, has exactly this period (`Crc32.minimalPeriod_shift`). Since eight has no
divisor in common with it, it is the period under zero bytes too (`checksum_zeros_eq_zero_iff`).
-/

namespace GroupCommit

open Function

namespace Crc32

/-! ### Products -/

/-- The constant polynomial one. -/
def unit : UInt32 := 0x80000000

/-- One step of a product: the sum so far is multiplied by the variable, and `a` is added to it if `b`
has this coefficient. -/
def productStep (a b sum : UInt32) (i : ℕ) : UInt32 :=
  shift sum ^^^ if b.toNat.testBit i then a else 0

/-- The product of two polynomials, less multiples of the generator. -/
def product (a b : UInt32) : UInt32 := (List.range 32).foldl (productStep a b) 0

theorem iterate_shift_zero (n : ℕ) : shift^[n] 0 = 0 := iterate_fixed (by decide) n

/-- The lower `k` bits of `x`, as high up as they go, are what a product has dealt with after `k` of its
steps. -/
theorem foldl_productStep (n : ℕ) (x : UInt32) {k : ℕ} (h : k ≤ 32) :
    (List.range k).foldl (productStep (shift^[n] unit) x) 0 =
      shift^[n] (UInt32.ofNat (2 ^ (32 - k) * (x.toNat % 2 ^ k))) := by
  induction k with
  | zero => simp [Nat.mod_one, iterate_shift_zero]
  | succ k ih =>
    obtain ⟨j, h_j⟩ : ∃ j, 32 - k = j + 1 := ⟨31 - k, by omega⟩
    have h_j' : 32 - (k + 1) = j := by omega
    have h_top : 2 ^ j * 2 ^ k = 2 ^ 31 := by rw [← pow_add]; congr 1; omega
    have h_low : 2 ^ j * (x.toNat % 2 ^ k) < 2 ^ 31 := by
      rw [← h_top]
      exact Nat.mul_lt_mul_of_pos_left (Nat.mod_lt _ (Nat.two_pow_pos k)) (Nat.two_pow_pos j)
    have h_double : 2 ^ (j + 1) * (x.toNat % 2 ^ k) = 2 * (2 ^ j * (x.toNat % 2 ^ k)) := by
      rw [pow_succ', mul_assoc]
    -- one more bit of `x` goes to the top, and the others are shifted down by one
    have h_next : UInt32.ofNat (2 ^ j * (x.toNat % 2 ^ (k + 1))) =
        UInt32.ofNat (2 ^ j * (x.toNat % 2 ^ k)) ^^^ if x.toNat.testBit k then unit else 0 := by
      rw [Nat.mod_pow_succ, ← Nat.toNat_testBit, mul_add, ← mul_assoc, h_top,
        ofNat_add_two_pow_mul h_low]
      congr 1
      cases x.toNat.testBit k <;> rfl
    have h_unit : (if x.toNat.testBit k then shift^[n] unit else 0) =
        shift^[n] (if x.toNat.testBit k then unit else 0) := by
      split
      · rfl
      · exact (iterate_shift_zero n).symm
    rw [List.range_succ, List.foldl_append, ih (by omega), List.foldl_cons, List.foldl_nil, productStep,
      h_j, h_j', h_next, h_unit, iterate_shift_xor, h_double, ← iterate_succ_apply' shift,
      iterate_succ_apply, shift_double (by omega)]

/-- **Shifting is multiplying** by a power of the variable. -/
theorem iterate_shift_eq_product (n : ℕ) (x : UInt32) : shift^[n] x = product (shift^[n] unit) x := by
  rw [product, foldl_productStep n x le_rfl, Nat.sub_self, pow_zero, one_mul,
    Nat.mod_eq_of_lt x.toNat_lt, UInt32.ofNat_toNat]

/-- The value of `f` at a word that is worked out first. -/
def eager (word : UInt32) (f : UInt32 → UInt32) : UInt32 :=
  match word.toNat with
  | 0 => f 0
  | value + 1 => f (UInt32.ofNat (value + 1))

/-- Evaluating the argument first changes nothing. -/
theorem eager_eq (word : UInt32) (f : UInt32 → UInt32) : eager word f = f word := by
  unfold eager
  split
  next h => rw [← UInt32.ofNat_toNat (x := word), h]; rfl
  next value h =>
    change f (UInt32.ofNat value.succ) = f word
    rw [← h, UInt32.ofNat_toNat]

/-- A power of the variable, continued by the lower `digits` binary digits of `n`, highest digit first:
each of them squares it and, if it is one, multiplies it by the variable. -/
def power (n : ℕ) : ℕ → UInt32 → UInt32
  | 0, sofar => sofar
  | digits + 1, sofar =>
    eager (if n.testBit digits then shift (product sofar sofar) else product sofar sofar)
      (power n digits)

/-- Square and multiply, digit by digit from the top, counts the steps in binary. -/
theorem power_eq (n digits m : ℕ) :
    power n digits (shift^[m] unit) = shift^[m * 2 ^ digits + n % 2 ^ digits] unit := by
  induction digits generalizing m with
  | zero => simp [power, Nat.mod_one]
  | succ digits ih =>
    -- with `m` steps made, the square makes them twice, and a digit one adds a step
    have h_square : product (shift^[m] unit) (shift^[m] unit) = shift^[m + m] unit := by
      rw [← iterate_shift_eq_product, iterate_add_apply]
    have h_digit : (if n.testBit digits then shift (product (shift^[m] unit) (shift^[m] unit))
        else product (shift^[m] unit) (shift^[m] unit)) =
          shift^[m + m + (n.testBit digits).toNat] unit := by
      rw [h_square]
      cases n.testBit digits
      · rfl
      · exact (iterate_succ_apply' shift (m + m) unit).symm
    -- one digit more of the number of steps
    have h_count : (m + m + (n.testBit digits).toNat) * 2 ^ digits + n % 2 ^ digits =
        m * 2 ^ (digits + 1) + n % 2 ^ (digits + 1) := by
      rw [Nat.mod_pow_succ, Nat.toNat_testBit, pow_succ]
      ring
    rw [power, eager_eq, h_digit, ih, h_count]

/-- Any number of steps below `2 ^ 32` is one product. -/
theorem iterate_shift_eq_power {n : ℕ} (h : n < 2 ^ 32) (x : UInt32) :
    shift^[n] x = product (power n 32 unit) x := by
  have h_power := power_eq n 32 0
  rw [Nat.zero_mul, Nat.zero_add, Nat.mod_eq_of_lt h] at h_power
  rw [iterate_shift_eq_product, ← h_power]
  rfl

/-! ### The period -/

/-- The prime factors of `2 ^ 32 - 1` are the Fermat primes. -/
theorem prime_factor {p : ℕ} (hp : p.Prime) (h : p ∣ 2 ^ 32 - 1) :
    p ∈ [3, 5, 17, 257, 65537] := by
  have h_factors : 2 ^ 32 - 1 = 3 * 5 * 17 * 257 * 65537 := by decide
  have h_eq : ∀ {q : ℕ}, q.Prime → p ∣ q → p = q := fun hq => (Nat.prime_dvd_prime_iff_eq hp hq).1
  rw [h_factors] at h
  simp only [hp.dvd_mul] at h
  rcases h with (((h | h) | h) | h) | h <;> simp [h_eq (by norm_num) h]

/-- A divisor that divides no prime fraction of a number is the number itself. -/
theorem eq_of_not_dvd_div {d n : ℕ} (h : d ∣ n)
    (h_prime : ∀ p, p.Prime → p ∣ n → ¬ d ∣ n / p) : d = n := by
  obtain ⟨k, rfl⟩ := h
  by_contra h_ne
  have h_prime_factor : k.minFac.Prime := Nat.minFac_prime fun h_one => h_ne (by rw [h_one, mul_one])
  refine h_prime k.minFac h_prime_factor (Dvd.dvd.mul_left k.minFac_dvd d) ?_
  rw [Nat.mul_div_assoc d k.minFac_dvd]
  exact dvd_mul_right d _

/-- After `2 ^ 32 - 1` steps every register is back. -/
theorem isPeriodicPt_shift (x : UInt32) : IsPeriodicPt shift (2 ^ 32 - 1) x := by
  have h_power : power (2 ^ 32 - 1) 32 unit = power 0 32 unit := by decide +kernel
  calc shift^[2 ^ 32 - 1] x
      = product (power (2 ^ 32 - 1) 32 unit) x := iterate_shift_eq_power (by decide) x
    _ = product (power 0 32 unit) x := by rw [h_power]
    _ = x := (iterate_shift_eq_power (by decide) x).symm

/-- **The period of the register** that a checksum starts from. -/
theorem minimalPeriod_shift : minimalPeriod shift 0xFFFFFFFF = 2 ^ 32 - 1 := by
  refine eq_of_not_dvd_div (isPeriodicPt_shift _).minimalPeriod_dvd fun p hp h_dvd h_period => ?_
  have h_same : ∀ q ∈ [3, 5, 17, 257, 65537],
      product (power ((2 ^ 32 - 1) / q) 32 unit) 0xFFFFFFFF ≠ 0xFFFFFFFF := by decide +kernel
  refine h_same p (prime_factor hp h_dvd) ?_
  rw [← iterate_shift_eq_power (lt_of_le_of_lt (Nat.div_le_self _ _) (by decide))]
  exact isPeriodicPt_iff_minimalPeriod_dvd.2 h_period

/-! ### Zero bytes -/

/-- A zero byte is eight steps of the register. -/
theorem foldl_feed_zeros (n : ℕ) (register : UInt32) :
    (Bytes.zeros n).foldl feed register = shift^[8 * n] register := by
  induction n generalizing register with
  | zero => rfl
  | succ n ih =>
    have h_first : feed register 0 = shift^[8] register := by
      rw [feed_eq]
      exact congrArg _ UInt32.xor_zero
    rw [Bytes.zeros, List.replicate_succ, List.foldl_cons, h_first]
    exact (ih _).trans (iterate_add_apply shift (8 * n) 8 register).symm

end Crc32

/-- **The checksum of zeros** is zero just when their number is a multiple of the period. -/
theorem checksum_zeros_eq_zero_iff (n : ℕ) : checksum (Bytes.zeros n) = 0 ↔ 2 ^ 32 - 1 ∣ n := by
  rw [checksum, Crc32.foldl_feed_zeros, UInt32.xor_eq_zero_iff]
  calc Crc32.shift^[8 * n] 0xFFFFFFFF = 0xFFFFFFFF
      ↔ minimalPeriod Crc32.shift 0xFFFFFFFF ∣ 8 * n := isPeriodicPt_iff_minimalPeriod_dvd
    _ ↔ 2 ^ 32 - 1 ∣ 8 * n := by rw [Crc32.minimalPeriod_shift]
    _ ↔ 2 ^ 32 - 1 ∣ n := Nat.Coprime.dvd_mul_left (by decide)

end GroupCommit
