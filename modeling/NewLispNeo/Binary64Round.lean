/-
Rounding a magnitude to a `double`: the fields of what `roundMagnitude` makes, and that it is
exact where 53 bits are enough.
-/
import NewLispNeo.Binary64
import Mathlib.Tactic.NormNum
import Mathlib.Tactic.Ring

namespace Binary64

theorem biasedExponent_encode (negative : Bool) {e f : Nat} (he : e < 2048) (hf : f < 2 ^ 52) :
    (encode negative e f).biasedExponent = e := by
  unfold biasedExponent encode
  rw [BitVec.toNat_ofNat]
  cases negative <;> simp only [Bool.false_eq_true, if_false, if_true] <;> omega

theorem fraction_encode (negative : Bool) {e f : Nat} (hf : f < 2 ^ 52) :
    (encode negative e f).fraction = f := by
  unfold fraction encode
  rw [BitVec.toNat_ofNat]
  cases negative <;> simp only [Bool.false_eq_true, if_false, if_true] <;> omega

theorem isNaN_encode (negative : Bool) {e f : Nat} (he : e < 2047) (hf : f < 2 ^ 52) :
    (encode negative e f).isNaN = false := by
  unfold isNaN
  rw [biasedExponent_encode negative (by omega) hf]
  simp [he.ne]

theorem isNaN_infinity (negative : Bool) : (infinity negative).isNaN = false := by
  unfold isNaN infinity
  rw [fraction_encode negative (by decide)]
  simp

/-- The bits that are kept of a magnitude of more than 53 bits. -/
theorem kept_bounds {n : Nat} (hn : 2 ^ 53 ≤ n) :
    2 ^ 52 ≤ n / 2 ^ (Nat.log2 n - 52) ∧ n / 2 ^ (Nat.log2 n - 52) < 2 ^ 53 := by
  have hzero : n ≠ 0 := by omega
  have hlow : 2 ^ Nat.log2 n ≤ n := Nat.log2_self_le hzero
  have hhigh : n < 2 ^ (Nat.log2 n + 1) := Nat.lt_log2_self
  have hlog : 53 ≤ Nat.log2 n := (Nat.le_log2 hzero).2 hn
  constructor
  · rw [Nat.le_div_iff_mul_le (by positivity), ← Nat.pow_add]
    rwa [show 52 + (Nat.log2 n - 52) = Nat.log2 n by omega]
  · rw [Nat.div_lt_iff_lt_mul (by positivity), ← Nat.pow_add]
    rwa [show 53 + (Nat.log2 n - 52) = Nat.log2 n + 1 by omega]

theorem isNaN_normal (negative : Bool) {shift rounded : Nat} (hlow : 2 ^ 52 ≤ rounded)
    (hhigh : rounded ≤ 2 ^ 53) :
    (if 2047 ≤ (if rounded = 2 ^ 53 then shift + 2 else shift + 1) then infinity negative
      else encode negative (if rounded = 2 ^ 53 then shift + 2 else shift + 1)
        (if rounded = 2 ^ 53 then 0 else rounded - 2 ^ 52)).isNaN = false := by
  by_cases hexponent : 2047 ≤ (if rounded = 2 ^ 53 then shift + 2 else shift + 1)
  · rw [if_pos hexponent]
    exact isNaN_infinity negative
  · rw [if_neg hexponent]
    refine isNaN_encode negative (not_le.1 hexponent) ?_
    split <;> omega

theorem isNaN_roundMagnitude (negative : Bool) (n : Nat) :
    (roundMagnitude negative n).isNaN = false := by
  by_cases hn : n < 2 ^ 53
  · unfold roundMagnitude
    rw [if_pos hn]
    by_cases hsubnormal : n < 2 ^ 52
    · rw [if_pos hsubnormal]
      exact isNaN_encode negative (by decide) hsubnormal
    · rw [if_neg hsubnormal]
      exact isNaN_encode negative (by decide) (by omega)
  · obtain ⟨hlow, hhigh⟩ := kept_bounds (not_lt.1 hn)
    unfold roundMagnitude
    rw [if_neg hn]
    refine isNaN_normal negative ?_ ?_
    · split <;> omega
    · split <;> omega

theorem isNaN_ofInt (n : Int) : (ofInt n).isNaN = false := isNaN_roundMagnitude _ _

theorem negative_encode (negative : Bool) {e f : Nat} (he : e < 2048) (hf : f < 2 ^ 52) :
    (encode negative e f).negative = negative := by
  unfold Binary64.negative encode
  rw [BitVec.toNat_ofNat]
  cases negative
  · simp only [Bool.false_eq_true, if_false, decide_eq_false_iff_not, not_le]
    omega
  · simp only [if_true, decide_eq_true_eq]
    omega

theorem magnitude_encode_zero (negative : Bool) {f : Nat} (hf : f < 2 ^ 52) :
    (encode negative 0 f).magnitude = f := by
  rw [magnitude, biasedExponent_encode negative (by decide) hf, if_pos rfl,
    fraction_encode negative hf]

theorem magnitude_encode (negative : Bool) {e f : Nat} (he : e + 1 < 2048) (hf : f < 2 ^ 52) :
    (encode negative (e + 1) f).magnitude = (2 ^ 52 + f) * 2 ^ e := by
  rw [magnitude, biasedExponent_encode negative he hf, if_neg (Nat.succ_ne_zero e),
    fraction_encode negative hf, Nat.add_sub_cancel]

theorem negative_infinity (negative : Bool) : (infinity negative).negative = negative :=
  negative_encode negative (by decide) (by decide)

theorem negative_normal (negative : Bool) {shift rounded : Nat} (hlow : 2 ^ 52 ≤ rounded)
    (hhigh : rounded ≤ 2 ^ 53) :
    (if 2047 ≤ (if rounded = 2 ^ 53 then shift + 2 else shift + 1) then infinity negative
      else encode negative (if rounded = 2 ^ 53 then shift + 2 else shift + 1)
        (if rounded = 2 ^ 53 then 0 else rounded - 2 ^ 52)).negative = negative := by
  by_cases hexponent : 2047 ≤ (if rounded = 2 ^ 53 then shift + 2 else shift + 1)
  · rw [if_pos hexponent]
    exact negative_infinity negative
  · rw [if_neg hexponent]
    refine negative_encode negative (by omega) ?_
    split <;> omega

/-- Rounding keeps the sign. -/
theorem negative_roundMagnitude (negative : Bool) (n : Nat) :
    (roundMagnitude negative n).negative = negative := by
  by_cases hn : n < 2 ^ 53
  · rw [roundMagnitude, if_pos hn]
    by_cases hsubnormal : n < 2 ^ 52
    · rw [if_pos hsubnormal]
      exact negative_encode negative (by decide) hsubnormal
    · rw [if_neg hsubnormal]
      exact negative_encode negative (by decide) (by omega)
  · obtain ⟨hlow, hhigh⟩ := kept_bounds (not_lt.1 hn)
    rw [roundMagnitude, if_neg hn]
    refine negative_normal negative ?_ ?_
    · split <;> omega
    · split <;> omega

theorem isInf_encode (negative : Bool) {e f : Nat} (he : e < 2047) (hf : f < 2 ^ 52) :
    (encode negative e f).isInf = false := by
  rw [isInf, biasedExponent_encode negative (by omega) hf]
  simp [he.ne]

theorem log2_mul_two_pow {k : Nat} (hk : k ≠ 0) (j : Nat) :
    Nat.log2 (k * 2 ^ j) = Nat.log2 k + j := by
  induction j with
  | zero => rw [pow_zero, Nat.mul_one, Nat.add_zero]
  | succ j ih =>
      have hne : k * 2 ^ j ≠ 0 := Nat.mul_ne_zero hk (by positivity)
      rw [pow_succ, ← Nat.mul_assoc, Nat.mul_comm, Nat.log2_two_mul hne, ih, Nat.add_assoc]

/-- Nothing is lost where the bits behind the 53 highest are zero. -/
theorem roundMagnitude_of_dvd (negative : Bool) {n : Nat} (hn : 2 ^ 53 ≤ n)
    (hdvd : 2 ^ (Nat.log2 n - 52) ∣ n) (hlog : Nat.log2 n ≤ 2097) :
    roundMagnitude negative n =
      encode negative (Nat.log2 n - 52 + 1) (n / 2 ^ (Nat.log2 n - 52) - 2 ^ 52) := by
  obtain ⟨-, hhigh⟩ := kept_bounds hn
  have hpos : 0 < 2 ^ (Nat.log2 n - 52 - 1) := by positivity
  have hround : (decide (2 ^ (Nat.log2 n - 52 - 1) < 0) ||
      (decide (0 = 2 ^ (Nat.log2 n - 52 - 1)) &&
        decide (n / 2 ^ (Nat.log2 n - 52) % 2 = 1))) = false := by
    rw [decide_eq_false (by omega), decide_eq_false (by omega)]
    rfl
  rw [roundMagnitude, if_neg (not_lt.2 hn)]
  simp only [Nat.mod_eq_zero_of_dvd hdvd, hround, Bool.false_eq_true, if_false]
  rw [if_neg hhigh.ne, if_neg hhigh.ne, if_neg (by omega)]

/-- A magnitude of at most 53 bits, shifted, is kept exactly. -/
theorem roundMagnitude_exact (negative : Bool) {k j : Nat} (hk : k < 2 ^ 53) (hj : j ≤ 2000) :
    (roundMagnitude negative (k * 2 ^ j)).magnitude = k * 2 ^ j ∧
      (roundMagnitude negative (k * 2 ^ j)).negative = negative ∧
      (roundMagnitude negative (k * 2 ^ j)).isInf = false := by
  by_cases hsmall : k * 2 ^ j < 2 ^ 53
  · rw [roundMagnitude, if_pos hsmall]
    by_cases hsub : k * 2 ^ j < 2 ^ 52
    · rw [if_pos hsub]
      exact ⟨magnitude_encode_zero negative hsub, negative_encode negative (by decide) hsub,
        isInf_encode negative (by decide) hsub⟩
    · rw [if_neg hsub]
      have hf : k * 2 ^ j - 2 ^ 52 < 2 ^ 52 := by omega
      refine ⟨?_, negative_encode negative (by decide) hf, isInf_encode negative (by decide) hf⟩
      rw [magnitude_encode negative (e := 0) (by decide) hf]
      omega
  · have hne : k ≠ 0 := by
      rintro rfl
      simp at hsmall
    have hlog := log2_mul_two_pow hne j
    have hklog : Nat.log2 k < 53 := (Nat.log2_lt hne).mpr hk
    obtain ⟨hlow, hhigh⟩ := kept_bounds (not_lt.1 hsmall)
    have hdvd : 2 ^ (Nat.log2 (k * 2 ^ j) - 52) ∣ k * 2 ^ j :=
      Dvd.dvd.mul_left (Nat.pow_dvd_pow 2 (by omega)) k
    have hkept := Nat.div_mul_cancel hdvd
    rw [roundMagnitude_of_dvd negative (not_lt.1 hsmall) hdvd (by omega)]
    have hf : k * 2 ^ j / 2 ^ (Nat.log2 (k * 2 ^ j) - 52) - 2 ^ 52 < 2 ^ 52 := by omega
    have he : Nat.log2 (k * 2 ^ j) - 52 + 1 < 2047 := by omega
    refine ⟨?_, negative_encode negative (by omega) hf, isInf_encode negative he hf⟩
    rw [magnitude_encode negative (by omega) hf, Nat.add_sub_cancel' hlow, hkept]

/-- The sign of a converted integer. -/
theorem negative_ofInt (n : Int) : (ofInt n).negative = decide (n < 0) := by
  rw [ofInt, roundScaled, negative_roundMagnitude]
  apply decide_eq_decide.mpr
  constructor
  · intro h
    by_contra hn
    have hpos : (0 : Int) ≤ n * 2 ^ 1074 := Int.mul_nonneg (by omega) (by positivity)
    omega
  · intro h
    exact Int.mul_neg_of_neg_of_pos h (by positivity)

end Binary64
