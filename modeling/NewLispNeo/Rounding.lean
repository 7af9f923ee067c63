/-
Rounding of rationals to binary floating point with a fixed number of fraction
bits and no bound on the exponent: to nearest, ties to even.
-/
import Mathlib.Data.Int.Log
import Mathlib.Data.Rat.Floor
import Mathlib.Tactic.Linarith
import Mathlib.Tactic.Positivity
import Mathlib.Tactic.FieldSimp
import Mathlib.Tactic.Ring

namespace Rounding

/-- The nearest integer, and of two the even one. -/
def nearestEven (v : ℚ) : ℤ :=
  if v - ⌊v⌋ < 1 / 2 then ⌊v⌋
  else if 1 / 2 < v - ⌊v⌋ then ⌊v⌋ + 1
  else if ⌊v⌋ % 2 = 0 then ⌊v⌋ else ⌊v⌋ + 1

/-- The distance of two neighbours with `p` fraction bits. -/
def ulp (p : ℕ) (v : ℚ) : ℚ := 2 ^ (Int.log 2 v - p)

/-- The nearest number with `p` fraction bits. -/
def round (p : ℕ) (v : ℚ) : ℚ := nearestEven (v / ulp p v) * ulp p v

section Nearest

variable {u v : ℚ}

theorem nearestEven_error (v : ℚ) : |(nearestEven v : ℚ) - v| ≤ 1 / 2 := by
  have hlow := Int.floor_le v
  have hhigh := Int.lt_floor_add_one v
  unfold nearestEven
  rw [abs_le]
  split_ifs <;> push_cast <;> constructor <;> linarith

@[simp] theorem nearestEven_intCast (n : ℤ) : nearestEven n = n := by
  simp [nearestEven]

theorem nearestEven_mono (h : u ≤ v) : nearestEven u ≤ nearestEven v := by
  by_contra hlt
  have hstep : (nearestEven v : ℚ) + 1 ≤ nearestEven u := by
    exact_mod_cast Int.add_one_le_iff.mpr (not_le.mp hlt)
  have hu := abs_le.mp (nearestEven_error u)
  have hv := abs_le.mp (nearestEven_error v)
  obtain rfl : u = v := le_antisymm h (by linarith)
  exact hlt le_rfl

end Nearest

section Round

variable {p : ℕ} {u v : ℚ}

theorem ulp_pos (p : ℕ) (v : ℚ) : 0 < ulp p v := zpow_pos two_pos _

@[simp] theorem round_zero (p : ℕ) : round p 0 = 0 := by
  simp [round, nearestEven]

theorem ulp_le (hv : 0 < v) : ulp p v ≤ v / 2 ^ p := by
  unfold ulp
  rw [zpow_sub₀ two_ne_zero, zpow_natCast]
  have hlog : (2 : ℚ) ^ Int.log 2 v ≤ v := by
    exact_mod_cast Int.zpow_log_le_self (b := 2) (by decide) hv
  gcongr

/-- The error is at most half a unit in the last place. -/
theorem round_error (p : ℕ) (hv : 0 ≤ v) : |round p v - v| ≤ v / 2 ^ (p + 1) := by
  rcases hv.eq_or_lt with rfl | hv
  · simp
  · have hulp := ulp_pos p v
    have hdiff : round p v - v = (nearestEven (v / ulp p v) - v / ulp p v) * ulp p v := by
      rw [round, sub_mul, div_mul_cancel₀ v hulp.ne']
    calc |round p v - v|
        = |nearestEven (v / ulp p v) - v / ulp p v| * ulp p v := by
          rw [hdiff, abs_mul, abs_of_pos hulp]
      _ ≤ 1 / 2 * ulp p v := by
          gcongr
          exact nearestEven_error _
      _ ≤ 1 / 2 * (v / 2 ^ p) := by
          gcongr
          exact ulp_le hv
      _ = v / 2 ^ (p + 1) := by rw [pow_succ]; field_simp

/-- What fits is not changed. -/
theorem round_exact {m : ℕ} (e : ℤ) (hm : m < 2 ^ (p + 1)) :
    round p (m * 2 ^ e) = m * 2 ^ e := by
  rcases Nat.eq_zero_or_pos m with rfl | hpos
  · simp
  · have hpower : (0 : ℚ) < 2 ^ e := zpow_pos two_pos e
    have hlog : Int.log 2 ((m : ℚ) * 2 ^ e) ≤ p + e := by
      rw [← Int.lt_add_one_iff, ← Int.lt_zpow_iff_log_lt (b := 2) (by decide)
        (mul_pos (by exact_mod_cast hpos) hpower)]
      rw [show (p : ℤ) + e + 1 = ((p + 1 : ℕ) : ℤ) + e by push_cast; ring, Nat.cast_ofNat,
        zpow_add₀ two_ne_zero, zpow_natCast]
      have hcast : (m : ℚ) < 2 ^ (p + 1) := by exact_mod_cast hm
      gcongr
    -- the number is a multiple of its last place
    obtain ⟨k, hk⟩ : ∃ k : ℕ, e = Int.log 2 ((m : ℚ) * 2 ^ e) - p + k :=
      ⟨(p + e - Int.log 2 ((m : ℚ) * 2 ^ e)).toNat, by omega⟩
    have hmul : (m : ℚ) * 2 ^ e = ((m * 2 ^ k : ℕ) : ℤ) * ulp p (m * 2 ^ e) := by
      unfold ulp
      conv_lhs => rw [hk, zpow_add₀ two_ne_zero, zpow_natCast]
      push_cast
      ring
    have hquot : (m : ℚ) * 2 ^ e / ulp p (m * 2 ^ e) = ((m * 2 ^ k : ℕ) : ℤ) := by
      rw [div_eq_iff (ulp_pos _ _).ne', ← hmul]
    rw [round, hquot, nearestEven_intCast, ← hmul]

/-- The power of two above a number is not passed. -/
theorem round_le_zpow (v : ℚ) : round p v ≤ 2 ^ (Int.log 2 v + 1) := by
  have hulp := ulp_pos p v
  have hlt : v < 2 ^ (Int.log 2 v + 1) := by
    exact_mod_cast Int.lt_zpow_succ_log_self (b := 2) (by decide) v
  have hpow : (2 : ℚ) ^ (Int.log 2 v + 1) / ulp p v = ((2 ^ (p + 1) : ℕ) : ℤ) := by
    unfold ulp
    rw [← zpow_sub₀ two_ne_zero,
      show Int.log 2 v + 1 - (Int.log 2 v - p) = ((p + 1 : ℕ) : ℤ) by push_cast; ring,
      zpow_natCast]
    push_cast
    ring
  have hle : nearestEven (v / ulp p v) ≤ ((2 ^ (p + 1) : ℕ) : ℤ) := by
    rw [← nearestEven_intCast ((2 ^ (p + 1) : ℕ) : ℤ), ← hpow]
    exact nearestEven_mono (by gcongr)
  have hcast : (nearestEven (v / ulp p v) : ℚ) ≤ (((2 ^ (p + 1) : ℕ) : ℤ) : ℚ) := by
    exact_mod_cast hle
  calc round p v ≤ (((2 ^ (p + 1) : ℕ) : ℤ) : ℚ) * ulp p v := by
        unfold round
        gcongr
    _ = 2 ^ (Int.log 2 v + 1) := by rw [← hpow, div_mul_cancel₀ _ hulp.ne']

theorem zpow_le_round (hv : 0 < v) : 2 ^ Int.log 2 v ≤ round p v := by
  have hulp := ulp_pos p v
  have hlow : (2 : ℚ) ^ Int.log 2 v ≤ v := by
    exact_mod_cast Int.zpow_log_le_self (b := 2) (by decide) hv
  have hpow : (2 : ℚ) ^ Int.log 2 v / ulp p v = ((2 ^ p : ℕ) : ℤ) := by
    unfold ulp
    rw [← zpow_sub₀ two_ne_zero, sub_sub_cancel, zpow_natCast]
    push_cast
    rfl
  have hle : ((2 ^ p : ℕ) : ℤ) ≤ nearestEven (v / ulp p v) := by
    rw [← nearestEven_intCast ((2 ^ p : ℕ) : ℤ), ← hpow]
    exact nearestEven_mono (by gcongr)
  have hcast : (((2 ^ p : ℕ) : ℤ) : ℚ) ≤ (nearestEven (v / ulp p v) : ℚ) := by
    exact_mod_cast hle
  calc (2 : ℚ) ^ Int.log 2 v = (((2 ^ p : ℕ) : ℤ) : ℚ) * ulp p v := by
        rw [← hpow, div_mul_cancel₀ _ hulp.ne']
    _ ≤ round p v := by
        unfold round
        gcongr

/-- Rounding keeps the order: within the places of one power of two, and across. -/
theorem round_mono (hu : 0 ≤ u) (h : u ≤ v) : round p u ≤ round p v := by
  rcases hu.eq_or_lt with rfl | hu
  · rcases h.eq_or_lt with rfl | hv
    · rfl
    · rw [round_zero]
      exact (zpow_pos two_pos _).le.trans (zpow_le_round hv)
  · have hv : 0 < v := hu.trans_le h
    rcases (Int.log_mono_right (b := 2) hu h).eq_or_lt with hlog | hlog
    · have hulp : ulp p u = ulp p v := by rw [ulp, hlog, ulp]
      have hpos := ulp_pos p v
      have hmono : nearestEven (u / ulp p v) ≤ nearestEven (v / ulp p v) :=
        nearestEven_mono (by gcongr)
      have hcast : (nearestEven (u / ulp p v) : ℚ) ≤ nearestEven (v / ulp p v) := by
        exact_mod_cast hmono
      unfold round
      rw [hulp]
      gcongr
    · calc round p u ≤ 2 ^ (Int.log 2 u + 1) := round_le_zpow u
        _ ≤ 2 ^ Int.log 2 v := zpow_le_zpow_right₀ one_le_two hlog
        _ ≤ round p v := zpow_le_round hv

theorem round_nonneg (hv : 0 ≤ v) : 0 ≤ round p v := by
  simpa using round_mono (p := p) le_rfl hv

end Round

end Rounding
