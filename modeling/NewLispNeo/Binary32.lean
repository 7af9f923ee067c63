/-
IEEE 754 binary32 numbers as bit patterns, and the C conversions between `float` and
`double`: exact one way, to nearest with ties to even the other.
-/
import NewLispNeo.Binary64Round

/-- A C `float`, identified with its 32-bit pattern. -/
structure Binary32 where
  bits : BitVec 32
deriving DecidableEq

namespace Binary32

def negative (x : Binary32) : Bool := 2 ^ 31 ≤ x.bits.toNat

def biasedExponent (x : Binary32) : Nat := x.bits.toNat / 2 ^ 23 % 2 ^ 8

def fraction (x : Binary32) : Nat := x.bits.toNat % 2 ^ 23

def isNaN (x : Binary32) : Bool := x.biasedExponent = 255 && x.fraction ≠ 0

/-- The magnitude in units of `2 ^ (-149)`, the smallest subnormal. -/
def magnitude (x : Binary32) : Nat :=
  if x.biasedExponent = 0 then x.fraction
  else (2 ^ 23 + x.fraction) * 2 ^ (x.biasedExponent - 1)

/-- The pattern of a sign and the 31 bits behind it. -/
def encode (negative : Bool) (rest : Nat) : Binary32 :=
  ⟨BitVec.ofNat 32 ((if negative then 2 ^ 31 else 0) + rest)⟩

/-- The C conversion of a `float` to `double`; a NaN becomes quiet. -/
def toDouble (x : Binary32) : Binary64 :=
  if x.biasedExponent = 255 then
    if x.fraction = 0 then Binary64.infinity x.negative
    else Binary64.encode x.negative 2047 (2 ^ 51 + x.fraction % 2 ^ 22 * 2 ^ 29)
  else Binary64.roundMagnitude x.negative (x.magnitude * 2 ^ 925)

/-- Round a magnitude given in units of `2 ^ (-1074)` to nearest even.  The exponent of the unit
in the last place, counted from that of a subnormal, is the exponent field less one. -/
def roundMagnitude (n : Nat) : Nat :=
  let unit := max 925 (Nat.log2 n - 23)
  let kept := n / 2 ^ unit
  let lost := n % 2 ^ unit
  let half := 2 ^ (unit - 1)
  let rounded := if half < lost || (lost = half && kept % 2 = 1) then kept + 1 else kept
  min (255 * 2 ^ 23) ((unit - 925) * 2 ^ 23 + rounded)

/-- The C conversion of a `double` to `float`. -/
def ofDouble (x : Binary64) : Binary32 :=
  if x.isNaN then encode x.negative (255 * 2 ^ 23 + 2 ^ 22 + x.fraction / 2 ^ 29 % 2 ^ 22)
  else if x.isInf then encode x.negative (255 * 2 ^ 23)
  else encode x.negative (roundMagnitude x.magnitude)

section Exact

variable (x : Binary32)

theorem biasedExponent_lt : x.biasedExponent < 256 := Nat.mod_lt _ (by decide)

theorem fraction_lt : x.fraction < 2 ^ 23 := Nat.mod_lt _ (by decide)

/-- The pattern is its fields. -/
theorem encode_fields : encode x.negative (x.biasedExponent * 2 ^ 23 + x.fraction) = x := by
  obtain ⟨bits⟩ := x
  rw [encode, Binary32.mk.injEq]
  apply BitVec.eq_of_toNat_eq
  have hlt := bits.isLt
  rw [BitVec.toNat_ofNat]
  simp only [negative, biasedExponent, fraction, decide_eq_true_eq]
  by_cases hneg : 2 ^ 31 ≤ bits.toNat
  · rw [if_pos hneg]
    omega
  · rw [if_neg hneg]
    omega

/-- A whole number of units in the last place is kept. -/
theorem roundMagnitude_of_unit {k unit : Nat}
    (hunit : max 925 (Nat.log2 (k * 2 ^ unit) - 23) = unit) :
    roundMagnitude (k * 2 ^ unit) = min (255 * 2 ^ 23) ((unit - 925) * 2 ^ 23 + k) := by
  have hpos : 0 < 2 ^ (unit - 1) := by positivity
  have hround : (decide (2 ^ (unit - 1) < 0) ||
      (decide (0 = 2 ^ (unit - 1)) && decide (k % 2 = 1))) = false := by
    rw [decide_eq_false (by omega), decide_eq_false (by omega)]
    rfl
  rw [roundMagnitude, hunit]
  simp only [Nat.mul_mod_left, Nat.mul_div_cancel k (Nat.two_pow_pos unit), hround,
    Bool.false_eq_true, if_false]

/-- A magnitude that a `float` has is rounded to itself. -/
theorem roundMagnitude_magnitude (hfinite : x.biasedExponent ≠ 255) :
    roundMagnitude (x.magnitude * 2 ^ 925) = x.biasedExponent * 2 ^ 23 + x.fraction := by
  have he := biasedExponent_lt x
  have hf := fraction_lt x
  rw [magnitude]
  by_cases hzero : x.biasedExponent = 0
  · have hunit : max 925 (Nat.log2 (x.fraction * 2 ^ 925) - 23) = 925 := by
      by_cases hne : x.fraction = 0
      · rw [hne, Nat.zero_mul, Nat.log2_zero]
        decide
      · have hlog := (Nat.log2_lt hne).mpr hf
        rw [Binary64.log2_mul_two_pow hne]
        omega
    rw [if_pos hzero, roundMagnitude_of_unit hunit, hzero]
    omega
  · have hne : 2 ^ 23 + x.fraction ≠ 0 := by omega
    have hlog : Nat.log2 (2 ^ 23 + x.fraction) = 23 :=
      (Nat.log2_eq_iff hne).mpr ⟨by omega, by omega⟩
    have hunit : max 925 (Nat.log2 ((2 ^ 23 + x.fraction) *
        2 ^ (x.biasedExponent - 1 + 925)) - 23) = x.biasedExponent - 1 + 925 := by
      rw [Binary64.log2_mul_two_pow hne, hlog]
      omega
    rw [if_neg hzero, Nat.mul_assoc, ← Nat.pow_add, roundMagnitude_of_unit hunit]
    omega

theorem magnitude_eq : ∃ k j, x.magnitude * 2 ^ 925 = k * 2 ^ j ∧ k < 2 ^ 53 ∧ j ≤ 2000 := by
  have he := biasedExponent_lt x
  have hf := fraction_lt x
  rw [magnitude]
  by_cases hzero : x.biasedExponent = 0
  · rw [if_pos hzero]
    exact ⟨x.fraction, 925, rfl, by omega, by decide⟩
  · rw [if_neg hzero]
    refine ⟨2 ^ 23 + x.fraction, x.biasedExponent - 1 + 925, ?_, by omega, by omega⟩
    rw [Nat.mul_assoc, ← Nat.pow_add]

/-- A `float` that is a number survives the way to `double` and back. -/
theorem ofDouble_toDouble (h : x.isNaN = false) : ofDouble x.toDouble = x := by
  rw [toDouble]
  by_cases hinf : x.biasedExponent = 255
  · have hfraction : x.fraction = 0 := by
      rw [isNaN, hinf] at h
      simpa using h
    rw [if_pos hinf, if_pos hfraction, ofDouble, Binary64.isNaN_infinity,
      Binary64.negative_infinity]
    have hisinf : (Binary64.infinity x.negative).isInf = true := by
      cases x.negative <;> decide
    rw [if_neg (by decide), if_pos hisinf]
    have hx := encode_fields x
    rw [hinf, hfraction] at hx
    exact hx
  · obtain ⟨k, j, heq, hk, hj⟩ := magnitude_eq x
    obtain ⟨hmagnitude, hnegative, hisinf⟩ :=
      Binary64.roundMagnitude_exact x.negative hk hj
    rw [if_neg hinf, ofDouble, Binary64.isNaN_roundMagnitude, if_neg (by decide), heq, hisinf,
      if_neg (by decide), hnegative, hmagnitude, ← heq, roundMagnitude_magnitude x hinf]
    exact encode_fields x

theorem negative_float (negative : Bool) {rest : Nat} (hrest : rest < 2 ^ 31) :
    (encode negative rest).negative = negative := by
  rw [encode, Binary32.negative, BitVec.toNat_ofNat]
  cases negative
  · simp only [Bool.false_eq_true, if_false, decide_eq_false_iff_not, not_le]
    omega
  · simp only [if_true, decide_eq_true_eq]
    omega

/-- Both conversions keep the sign. -/
theorem negative_ofDouble (x : Binary64) : (ofDouble x).negative = x.negative := by
  have hround : roundMagnitude x.magnitude < 2 ^ 31 :=
    lt_of_le_of_lt (Nat.min_le_left _ _) (by decide)
  rw [ofDouble]
  split_ifs
  · exact negative_float x.negative (by omega)
  · exact negative_float x.negative (by decide)
  · exact negative_float x.negative hround

theorem negative_toDouble : x.toDouble.negative = x.negative := by
  rw [toDouble]
  split_ifs
  · exact Binary64.negative_infinity _
  · exact Binary64.negative_encode _ (by decide) (by omega)
  · exact Binary64.negative_roundMagnitude _ _

end Exact

end Binary32
