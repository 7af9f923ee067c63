/-
Discrete Fourier sums over a ring with a root of unity: the split into even and odd places,
the inverse, and the reversal of the bits of a place.
-/
import Mathlib.Algebra.BigOperators.Intervals
import Mathlib.Algebra.Ring.GeomSum
import Mathlib.RingTheory.RootsOfUnity.PrimitiveRoots

namespace FourierSum

open Finset

/-! ### The sums -/

section Sums

variable {R : Type*} [CommRing R] {w : R} {f g : Nat → R} {n k : Nat}

/-- The sum of `n` values at frequency `k`, for the root `w`. -/
def dftSum (w : R) (n : Nat) (f : Nat → R) (k : Nat) : R :=
  ∑ t ∈ range n, f t * w ^ (k * t)

theorem dftSum_congr (h : ∀ t < n, f t = g t) : dftSum w n f k = dftSum w n g k := by
  refine sum_congr rfl fun t ht => ?_
  rw [h t (mem_range.mp ht)]

@[simp] theorem dftSum_one : dftSum w 1 f k = f 0 := by
  simp [dftSum]

/-- Values that are zero from `n` on add nothing. -/
theorem dftSum_extend {m : Nat} (hnm : n ≤ m) (h : ∀ t, n ≤ t → t < m → f t = 0) :
    dftSum w m f k = dftSum w n f k := by
  refine (sum_subset (range_subset_range.mpr hnm) fun t ht hnot => ?_).symm
  rw [h t (Nat.le_of_not_lt (mt mem_range.mpr hnot)) (mem_range.mp ht), zero_mul]

theorem sum_range_two_mul (f : Nat → R) (n : Nat) :
    ∑ t ∈ range (2 * n), f t =
      ∑ t ∈ range n, f (2 * t) + ∑ t ∈ range n, f (2 * t + 1) := by
  induction n with
  | zero => simp
  | succ n ih =>
      have htwo : 2 * (n + 1) = 2 * n + 1 + 1 := by omega
      rw [htwo, sum_range_succ, sum_range_succ, ih, sum_range_succ, sum_range_succ]
      ring

/-- A sum of twice the length from those of the even and of the odd places. -/
theorem dftSum_two_mul (w : R) (n : Nat) (f : Nat → R) (k : Nat) :
    dftSum w (2 * n) f k =
      dftSum (w ^ 2) n (fun t => f (2 * t)) k +
        w ^ k * dftSum (w ^ 2) n (fun t => f (2 * t + 1)) k := by
  rw [dftSum, sum_range_two_mul, dftSum, dftSum, mul_sum]
  congr 1
  · refine sum_congr rfl fun t _ => ?_
    rw [← pow_mul, ← mul_assoc, ← mul_assoc, mul_comm k 2]
  · refine sum_congr rfl fun t _ => ?_
    rw [mul_left_comm, ← pow_mul, ← pow_add]
    congr 2
    ring

/-- The same frequency again after one turn. -/
theorem dftSum_add_period (hw : w ^ n = 1) (k : Nat) :
    dftSum w n f (k + n) = dftSum w n f k := by
  refine sum_congr rfl fun t _ => ?_
  rw [add_mul, pow_add, pow_mul w n t, hw, one_pow, mul_one]

/-- The frequencies of the upper half take the odd places with the other sign. -/
theorem dftSum_upper (hw : w ^ n = -1) (f : Nat → R) (k : Nat) :
    dftSum w (2 * n) f (k + n) =
      dftSum (w ^ 2) n (fun t => f (2 * t)) k -
        w ^ k * dftSum (w ^ 2) n (fun t => f (2 * t + 1)) k := by
  have hturn : (w ^ 2) ^ n = 1 := by
    rw [← pow_mul, mul_comm, pow_mul, hw, neg_one_sq]
  rw [dftSum_two_mul, dftSum_add_period hturn, dftSum_add_period hturn, pow_add, hw]
  ring

end Sums

/-! ### The inverse -/

section Inverse

variable {K : Type*} [Field K] {w : K} {n : Nat}

theorem sum_pow_of_ne_one {u : K} (hu : u ^ n = 1) (hne : u ≠ 1) : ∑ k ∈ range n, u ^ k = 0 := by
  have hmul := mul_neg_geom_sum u n
  rw [hu, sub_self] at hmul
  exact (mul_eq_zero.mp hmul).resolve_left (sub_ne_zero_of_ne hne.symm)

/-- Back with the inverse root, up to the factor `n`. -/
theorem dftSum_dftSum (hw : IsPrimitiveRoot w n) (f : Nat → K) {j : Nat} (hj : j < n) :
    dftSum w⁻¹ n (dftSum w n f) j = n * f j := by
  have hw0 : w ≠ 0 := hw.ne_zero (by omega)
  have hinner : ∀ t ∈ range n,
      ∑ k ∈ range n, f t * w ^ (k * t) * w⁻¹ ^ (j * k) = if t = j then n * f j else 0 := by
    intro t ht
    have hterm : ∀ k, f t * w ^ (k * t) * w⁻¹ ^ (j * k) = f t * (w ^ t * w⁻¹ ^ j) ^ k := by
      intro k
      rw [mul_pow, ← pow_mul, ← pow_mul, mul_comm k t, mul_assoc]
    rw [sum_congr rfl fun k _ => hterm k, ← mul_sum]
    split
    · next heq =>
        rw [heq, ← mul_pow, mul_inv_cancel₀ hw0, one_pow]
        simp [mul_comm]
    · next hne =>
        have hu : w ^ t * w⁻¹ ^ j ≠ 1 := by
          intro hone
          rw [inv_pow, mul_inv_eq_one₀ (pow_ne_zero j hw0)] at hone
          exact hne (hw.pow_inj (mem_range.mp ht) hj hone)
        have hun : (w ^ t * w⁻¹ ^ j) ^ n = 1 := by
          rw [mul_pow, ← pow_mul, ← pow_mul, mul_comm t n, mul_comm j n, pow_mul, pow_mul,
            inv_pow, hw.pow_eq_one, inv_one, one_pow, one_pow, mul_one]
        rw [sum_pow_of_ne_one hun hu, mul_zero]
  calc dftSum w⁻¹ n (dftSum w n f) j
      = ∑ k ∈ range n, ∑ t ∈ range n, f t * w ^ (k * t) * w⁻¹ ^ (j * k) :=
        sum_congr rfl fun k _ => sum_mul _ _ _
    _ = ∑ t ∈ range n, ∑ k ∈ range n, f t * w ^ (k * t) * w⁻¹ ^ (j * k) := sum_comm
    _ = ∑ t ∈ range n, if t = j then n * f j else 0 := sum_congr rfl hinner
    _ = n * f j := by rw [sum_ite_eq' (range n) j, if_pos (mem_range.mpr hj)]

end Inverse

/-! ### The reversal of the bits of a place -/

/-- The lowest `l` bits in the opposite order. -/
def bitReverse : Nat → Nat → Nat
  | 0, _ => 0
  | l + 1, n => n % 2 * 2 ^ l + bitReverse l (n / 2)

variable {l n : Nat}

theorem bitReverse_even (l n : Nat) : bitReverse (l + 1) (2 * n) = bitReverse l n := by
  rw [bitReverse, Nat.mul_mod_right, Nat.zero_mul, Nat.zero_add, Nat.mul_div_right n two_pos]

theorem bitReverse_odd (l n : Nat) :
    bitReverse (l + 1) (2 * n + 1) = 2 ^ l + bitReverse l n := by
  have hmod : (2 * n + 1) % 2 = 1 := by omega
  have hdiv : (2 * n + 1) / 2 = n := by omega
  rw [bitReverse, hmod, hdiv, Nat.one_mul]

@[simp] theorem bitReverse_zero (l : Nat) : bitReverse l 0 = 0 := by
  induction l with
  | zero => rfl
  | succ l ih => exact (bitReverse_even l 0).trans ih

theorem bitReverse_lt (l n : Nat) : bitReverse l n < 2 ^ l := by
  induction l generalizing n with
  | zero => exact Nat.one_pos
  | succ l ih =>
      have hrest := ih (n / 2)
      rw [bitReverse, pow_succ]
      rcases Nat.mod_two_eq_zero_or_one n with hn | hn <;> rw [hn] <;> omega

theorem testBit_bitReverse (l n i : Nat) (hi : i < l) :
    (bitReverse l n).testBit i = n.testBit (l - 1 - i) := by
  induction l generalizing n i with
  | zero => omega
  | succ l ih =>
      have hlt := bitReverse_lt l (n / 2)
      rw [bitReverse]
      rcases Nat.lt_or_eq_of_le (Nat.le_of_lt_succ hi) with hil | rfl
      · rw [mul_comm, Nat.testBit_two_pow_mul_add _ hlt, if_pos hil, ih (n / 2) i hil,
          Nat.testBit_div_two]
        congr 1
        omega
      · rw [mul_comm, Nat.testBit_two_pow_mul_add _ hlt, if_neg (Nat.lt_irrefl i)]
        simp [Nat.testBit_zero]

theorem bitReverse_bitReverse (hn : n < 2 ^ l) : bitReverse l (bitReverse l n) = n := by
  refine Nat.eq_of_testBit_eq fun i => ?_
  by_cases hi : i < l
  · rw [testBit_bitReverse l _ i hi, testBit_bitReverse l n _ (by omega)]
    congr 1
    omega
  · have hpow : 2 ^ l ≤ 2 ^ i := Nat.pow_le_pow_right two_pos (Nat.le_of_not_lt hi)
    rw [Nat.testBit_lt_two_pow ((bitReverse_lt l _).trans_le hpow),
      Nat.testBit_lt_two_pow (hn.trans_le hpow)]

end FourierSum
