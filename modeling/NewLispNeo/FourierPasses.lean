/-
What the loops of `fastFourierTransform` compute: the reversal of the bits of the places, and
after each pass the transforms of the parts of the list.
-/
import Mathlib.Analysis.SpecialFunctions.Complex.Circle
import NewLispNeo.FourierTransform

namespace NewLispNeo

namespace FourierTransform

open FourierSum Outcome

variable {size fuel L : Nat} {data : Data}

/-- The complex number at a place of the block. -/
def point (data : Data) (k : Nat) : ℂ := ⟨data (2 * k), data (2 * k + 1)⟩

theorem point_update_re (data : Data) (a : Nat) (x : ℝ) (k : Nat) :
    point (Function.update data (2 * a) x) k =
      if k = a then ⟨x, (point data k).im⟩ else point data k := by
  have hodd : 2 * k + 1 ≠ 2 * a := by omega
  by_cases hka : k = a
  · subst hka
    simp [point]
  · simp [point, Function.update_of_ne hodd, hka]

theorem point_update_im (data : Data) (a : Nat) (x : ℝ) (k : Nat) :
    point (Function.update data (2 * a + 1) x) k =
      if k = a then ⟨(point data k).re, x⟩ else point data k := by
  have heven : 2 * k ≠ 2 * a + 1 := by omega
  by_cases hka : k = a
  · subst hka
    simp [point]
  · simp [point, Function.update_of_ne heven, hka]

theorem re_point (data : Data) (k : Nat) : data (2 * k) = (point data k).re := rfl

theorem im_point (data : Data) (k : Nat) : data (2 * k + 1) = (point data k).im := rfl

/-! ### The first loop -/

theorem swap_eq {a b : Nat} (ha : a < size) (hb : b < size) :
    swap size data a b =
      .value (Function.update (Function.update data a (data b)) b (data a)) :=
  if_pos ⟨ha, hb⟩

/-- Two numbers of the block change places. -/
theorem swap_points (data : Data) {a b : Nat} (hab : a < b) (hsize : 2 * b + 1 < size) :
    ∃ data', (swap size data (2 * b + 1 - 1) (2 * a + 1 - 1) >>= fun data =>
        swap size data (2 * b + 1) (2 * a + 1)) = .value data' ∧
      ∀ k, point data' k =
        if k = b then point data a else if k = a then point data b else point data k := by
  have hne : b ≠ a := Nat.ne_of_gt hab
  rw [swap_eq (by omega) (by omega), value_bind, swap_eq (by omega) (by omega)]
  refine ⟨_, rfl, fun k => ?_⟩
  rw [Nat.add_sub_cancel, Nat.add_sub_cancel]
  simp only [point_update_re, point_update_im, re_point, im_point]
  by_cases hkb : k = b
  · subst hkb
    simp [hne, hne.symm]
  · by_cases hka : k = a
    · subst hka
      simp [hne, hne.symm]
    · simp [hkb, hka]

/-- The counter of the first loop goes to the next place with its bits in the opposite order. -/
theorem advance_bitReverse {c : Nat} (hc : c + 1 < 2 ^ L) (hfuel : L < fuel) :
    advance fuel (2 ^ L) (2 * bitReverse L c + 1) = .value (2 * bitReverse L (c + 1) + 1) := by
  induction L generalizing c fuel with
  | zero =>
      rw [pow_zero] at hc
      omega
  | succ L ih =>
      obtain ⟨fuel, rfl⟩ := Nat.exists_eq_add_one_of_ne_zero (by omega : fuel ≠ 0)
      have hpow : 2 ^ (L + 1) = 2 * 2 ^ L := pow_succ' 2 L
      have hpos : 0 < 2 ^ L := Nat.two_pow_pos L
      rw [advance]
      obtain ⟨c, rfl | rfl⟩ := Nat.even_or_odd' c
      · have hlt := bitReverse_lt L c
        rw [bitReverse_even, bitReverse_odd, if_neg (by omega), hpow]
        congr 1
        ring
      · have hdiv : (2 * 2 ^ L) >>> 1 = 2 ^ L := by
          rw [Nat.shiftRight_one]
          omega
        have hrest : 2 * (2 ^ L + bitReverse L c) + 1 - 2 * 2 ^ L = 2 * bitReverse L c + 1 := by
          omega
        have hnext : 2 * c + 1 + 1 = 2 * (c + 1) := by omega
        rw [bitReverse_odd, hpow, if_pos (by omega), hdiv, hrest, hnext, bitReverse_even]
        exact ih (by omega) (by omega)

theorem advance_value (j : Nat) (hfuel : L < fuel) :
    ∃ j', advance fuel (2 ^ L) j = .value j' := by
  induction L generalizing j fuel with
  | zero =>
      obtain ⟨fuel, rfl⟩ := Nat.exists_eq_add_one_of_ne_zero (Nat.ne_of_gt hfuel)
      exact ⟨_, if_neg (by omega)⟩
  | succ L ih =>
      obtain ⟨fuel, rfl⟩ := Nat.exists_eq_add_one_of_ne_zero (by omega : fuel ≠ 0)
      rw [advance]
      split
      · rw [Nat.shiftRight_one, pow_succ, Nat.mul_div_cancel _ two_pos]
        exact ih _ (by omega)
      · exact ⟨_, rfl⟩

/-- After `c` rounds: the places up to `c` and those they have been swapped with. -/
structure Reordered (L : Nat) (data₀ : Data) (c : Nat) (s : Nat × Data) : Prop where
  counter : c < 2 ^ L → s.1 = 2 * bitReverse L c + 1
  points : ∀ k, k < 2 ^ L → point s.2 k =
    if min k (bitReverse L k) < c then point data₀ (bitReverse L k) else point data₀ k

/-- One round of the first loop. -/
theorem Reordered.step {data₀ : Data} {c : Nat} {s : Nat × Data} (h : Reordered L data₀ c s)
    (hc : c < 2 ^ L) (hsize : 2 * 2 ^ L ≤ size) (hfuel : L < fuel) :
    ∃ s', reorder size fuel (2 * 2 ^ L) (1 + 2 * c) s = .value s' ∧
      Reordered L data₀ (c + 1) s' := by
  obtain ⟨j, data⟩ := s
  have hj : j = 2 * bitReverse L c + 1 := h.counter hc
  have hpoints : ∀ k, k < 2 ^ L → point data k = _ := h.points
  have hrev := bitReverse_lt L c
  have hback := bitReverse_bitReverse hc
  have hi : 1 + 2 * c = 2 * c + 1 := Nat.add_comm _ _
  have hm : (2 * 2 ^ L) >>> 1 = 2 ^ L := by
    rw [Nat.shiftRight_one]
    omega
  -- the numbers after the swap, if there is one
  have hswap : ∃ data', (if 2 * c + 1 < j then
        swap size data (j - 1) (2 * c + 1 - 1) >>= fun data => swap size data j (2 * c + 1)
      else .value data) = .value data' ∧ ∀ k, k < 2 ^ L → point data' k =
        if min k (bitReverse L k) < c + 1 then point data₀ (bitReverse L k)
        else point data₀ k := by
    by_cases hlt : c < bitReverse L c
    · obtain ⟨data', hrun, hdata'⟩ := swap_points data hlt
        (show 2 * bitReverse L c + 1 < size by omega)
      rw [hj, if_pos (by omega)]
      refine ⟨data', hrun, fun k hk => ?_⟩
      have hkback := bitReverse_bitReverse hk
      rw [hdata']
      split
      · next heq =>
          subst heq
          rw [hback, if_pos (by omega), hpoints c hc, if_neg (by omega)]
      · next hne =>
          split
          · next heq =>
              subst heq
              rw [if_pos (by omega), hpoints _ hrev, hback, if_neg (by omega)]
          · next hne' =>
              rw [hpoints k hk]
              refine if_congr ?_ rfl rfl
              have hother : bitReverse L k ≠ c := by
                rintro rfl
                exact hne hkback.symm
              omega
    · rw [hj, if_neg (by omega)]
      refine ⟨data, rfl, fun k hk => ?_⟩
      have hkback := bitReverse_bitReverse hk
      rw [hpoints k hk]
      by_cases hkc : min k (bitReverse L k) = c
      · have hself : bitReverse L k = k := by
          rcases Nat.le_total k (bitReverse L k) with hle | hle
          · rw [Nat.min_eq_left hle] at hkc
            subst hkc
            omega
          · rw [Nat.min_eq_right hle] at hkc
            rw [← hkc, hkback] at hlt
            omega
        rw [hself, ite_self, ite_self]
      · refine if_congr ?_ rfl rfl
        omega
  obtain ⟨data', hrun, hdata'⟩ := hswap
  rw [hi, reorder, hrun, value_bind, hm]
  by_cases hlast : c + 1 < 2 ^ L
  · rw [hj, advance_bitReverse hlast hfuel]
    exact ⟨_, rfl, fun _ => rfl, hdata'⟩
  · obtain ⟨j', hj'⟩ := advance_value j hfuel
    rw [hj']
    exact ⟨_, rfl, fun hlt => absurd hlt hlast, hdata'⟩

/-- The first loop leaves each number at the place with the bits in the opposite order. -/
theorem reorder_run (data : Data) (hsize : 2 * 2 ^ L ≤ size) (hfuel : 2 ^ L < fuel) :
    ∃ r, forLoop (2 * 2 ^ L) 2 (reorder size fuel (2 * 2 ^ L)) fuel 1 (1, data) = .value r ∧
      ∀ k, k < 2 ^ L → point r.2 k = point data (bitReverse L k) := by
  have hL : L < fuel := Nat.lt_trans Nat.lt_two_pow_self hfuel
  have hstart : Reordered L data 0 (1, data) := by
    constructor
    · intro _
      rw [bitReverse_zero]
    · intro k _
      rw [if_neg (Nat.not_lt_zero _)]
  have hbound : ∀ c, 1 + 2 * c < 2 * 2 ^ L ↔ c < 2 ^ L := fun c => by omega
  obtain ⟨r, hrun, hr⟩ := forLoop_invariant _ (Reordered L data) hbound
    (fun c s hc h => h.step hc hsize hL) hstart hfuel
  refine ⟨r, hrun, fun k hk => ?_⟩
  rw [hr.points k hk, if_pos]
  omega

/-! ### One pass -/

/-- One butterfly on the numbers at the places `a` and `a + M`. -/
theorem butterfly_points (data : Data) (a : Nat) {M : Nat} (wr wi : ℝ) (hM : 0 < M)
    (hsize : 2 * (a + M) + 1 < size) :
    ∃ data', butterfly size (2 * M) wr wi (2 * a + 1) data = .value data' ∧
      ∀ k, point data' k =
        if k = a then point data a + ⟨wr, wi⟩ * point data (a + M)
        else if k = a + M then point data a - ⟨wr, wi⟩ * point data (a + M)
        else point data k := by
  have hj : 2 * a + 1 + 2 * M = 2 * (a + M) + 1 := by ring
  rw [butterfly, hj, if_pos hsize]
  refine ⟨_, rfl, fun k => ?_⟩
  rw [Nat.add_sub_cancel, Nat.add_sub_cancel]
  simp only [point_update_re, point_update_im, re_point, im_point]
  by_cases hka : k = a
  · subst hka
    apply Complex.ext <;> simp [hM.ne']
  · by_cases hkb : k = a + M
    · subst hkb
      apply Complex.ext <;> simp [hM.ne']
    · simp [hka, hkb]

variable {M Q : Nat} {w : ℂ} {data₀ : Data}

/-- Rows of `2 * M` places do not overlap. -/
theorem place_inj {q q' r r' d : Nat} (hr : r < d) (hr' : r' < d)
    (h : q * d + r = q' * d + r') : q = q' ∧ r = r' := by
  have hdiv : ∀ q r, r < d → (q * d + r) / d = q := by
    intro q r hlt
    rw [mul_comm, Nat.mul_add_div (Nat.zero_lt_of_lt hlt), Nat.div_eq_of_lt hlt, Nat.add_zero]
  have hq : q = q' := by rw [← hdiv q r hr, h, hdiv q' r' hr']
  subst hq
  exact ⟨rfl, Nat.add_left_cancel h⟩

/-- The pairs of the columns before `r`, and in the column `r` those of the rows before `q`,
have been replaced. -/
def Replaced (w : ℂ) (M Q : Nat) (data₀ : Data) (r q : Nat) (data : Data) : Prop :=
  ∀ q' < Q, ∀ r' < M,
    point data (q' * (2 * M) + r') =
        (if r' < r ∨ r' = r ∧ q' < q then
          point data₀ (q' * (2 * M) + r') + w ^ r' * point data₀ (q' * (2 * M) + r' + M)
        else point data₀ (q' * (2 * M) + r')) ∧
      point data (q' * (2 * M) + r' + M) =
        (if r' < r ∨ r' = r ∧ q' < q then
          point data₀ (q' * (2 * M) + r') - w ^ r' * point data₀ (q' * (2 * M) + r' + M)
        else point data₀ (q' * (2 * M) + r' + M))

/-- One butterfly replaces one pair more. -/
theorem Replaced.step {r q : Nat} {wr wi : ℝ} (h : Replaced w M Q data₀ r q data)
    (hw : (⟨wr, wi⟩ : ℂ) = w ^ r) (hr : r < M) (hq : q < Q) (hsize : 2 * (Q * (2 * M)) ≤ size) :
    ∃ data', butterfly size (2 * M) wr wi (2 * (q * (2 * M) + r) + 1) data = .value data' ∧
      Replaced w M Q data₀ r (q + 1) data' := by
  have hroom : (q + 1) * (2 * M) ≤ Q * (2 * M) := Nat.mul_le_mul_right _ hq
  rw [Nat.succ_mul] at hroom
  obtain ⟨data', hrun, hdata'⟩ := butterfly_points data (q * (2 * M) + r) wr wi
    (Nat.zero_lt_of_lt hr) (show 2 * (q * (2 * M) + r + M) + 1 < size by omega)
  refine ⟨data', hrun, fun q' hq' r' hr' => ?_⟩
  obtain ⟨hlow, hhigh⟩ := h q' hq' r' hr'
  have hcross : q' * (2 * M) + r' ≠ q * (2 * M) + r + M := by
    intro heq
    have hr'' := (place_inj (by omega) (by omega) (heq.trans (Nat.add_assoc _ r M))).2
    omega
  have hcross' : q' * (2 * M) + r' + M ≠ q * (2 * M) + r := by
    intro heq
    have hr'' := (place_inj (by omega) (by omega) ((Nat.add_assoc _ r' M).symm.trans heq)).2
    omega
  rw [hdata', hdata', hw]
  by_cases hpair : q' = q ∧ r' = r
  · obtain ⟨rfl, rfl⟩ := hpair
    have hold : ¬(r' < r' ∨ r' = r' ∧ q' < q') := by omega
    have hnew : r' < r' ∨ r' = r' ∧ q' < q' + 1 := by omega
    rw [if_neg hold] at hlow hhigh
    rw [if_pos rfl, if_neg hcross', if_pos rfl, if_pos hnew, if_pos hnew, hlow, hhigh]
    exact ⟨rfl, rfl⟩
  · have hne : q' * (2 * M) + r' ≠ q * (2 * M) + r := fun heq =>
      hpair (place_inj (by omega) (by omega) heq)
    have hne' : q' * (2 * M) + r' + M ≠ q * (2 * M) + r + M := fun heq =>
      hne (Nat.add_right_cancel heq)
    have hsame : (r' < r ∨ r' = r ∧ q' < q + 1) ↔ (r' < r ∨ r' = r ∧ q' < q) := by omega
    rw [if_neg hne, if_neg hcross, if_neg hcross', if_neg hne', hlow, hhigh]
    simp only [hsame, and_self]

/-- The loop over `i`: one column. -/
theorem Replaced.column {r : Nat} {wr wi : ℝ} (h : Replaced w M Q data₀ r 0 data)
    (hw : (⟨wr, wi⟩ : ℂ) = w ^ r) (hr : r < M) (hsize : 2 * (Q * (2 * M)) ≤ size)
    (hfuel : Q < fuel) :
    ∃ data', forLoop (2 * (Q * (2 * M)) + 1) ((2 * M) <<< 1) (butterfly size (2 * M) wr wi) fuel
        (1 + 2 * r) data = .value data' ∧ Replaced w M Q data₀ (r + 1) 0 data' := by
  have hstep : (2 * M) <<< 1 = 2 * (2 * M) := by
    rw [Nat.shiftLeft_eq, pow_one, mul_comm]
  have hplace : ∀ q, 1 + 2 * r + 2 * (2 * M) * q = 2 * (q * (2 * M) + r) + 1 := by
    intro q
    ring
  have hbound : ∀ q, 1 + 2 * r + 2 * (2 * M) * q < 2 * (Q * (2 * M)) + 1 ↔ q < Q := by
    intro q
    rw [hplace]
    constructor
    · intro hlt
      by_contra hge
      have hle : Q * (2 * M) ≤ q * (2 * M) := Nat.mul_le_mul_right _ (Nat.le_of_not_lt hge)
      omega
    · intro hlt
      have hle : (q + 1) * (2 * M) ≤ Q * (2 * M) := Nat.mul_le_mul_right _ hlt
      rw [Nat.succ_mul] at hle
      omega
  rw [hstep]
  obtain ⟨data', hrun, hdata'⟩ := forLoop_invariant _ (Replaced w M Q data₀ r) hbound
    (fun q data hq hdata => by
      rw [hplace]
      exact hdata.step hw hr hq hsize) h hfuel
  refine ⟨data', hrun, fun q' hq' r' hr' => ?_⟩
  have hsame : (r' < r ∨ r' = r ∧ q' < Q) ↔ (r' < r + 1 ∨ r' = r + 1 ∧ q' < 0) := by omega
  have hpair := hdata' q' hq' r' hr'
  simp only [hsame] at hpair
  exact hpair

/-- Before the column `r`: its factor, and the pairs of the columns before it. -/
structure Columns (w : ℂ) (M Q : Nat) (data₀ : Data) (r : Nat) (s : ℝ × ℝ × Data) : Prop where
  factor : (⟨s.1, s.2.1⟩ : ℂ) = w ^ r
  pairs : Replaced w M Q data₀ r 0 s.2.2

theorem Columns.step {wpr wpi : ℝ} {r : Nat} {s : ℝ × ℝ × Data} (h : Columns w M Q data₀ r s)
    (hw : (1 : ℂ) + ⟨wpr, wpi⟩ = w) (hr : r < M) (hsize : 2 * (Q * (2 * M)) ≤ size)
    (hfuel : Q < fuel) :
    ∃ s', twiddle size fuel (2 * (Q * (2 * M))) (2 * M) wpr wpi (1 + 2 * r) s = .value s' ∧
      Columns w M Q data₀ (r + 1) s' := by
  obtain ⟨wr, wi, data⟩ := s
  have hpow : (⟨wr, wi⟩ : ℂ) = w ^ r := h.factor
  obtain ⟨data', hcolumn, hdata'⟩ := h.pairs.column hpow hr hsize hfuel
  refine ⟨(wr * wpr - wi * wpi + wr, wi * wpr + wr * wpi + wi, data'), ?_, ?_, hdata'⟩
  · simp only [twiddle, hcolumn, value_bind]
  · rw [pow_succ, ← hpow, ← hw]
    apply Complex.ext
    · simp
      ring
    · simp
      ring

/-- The loop over `m` with the powers of `w` as its factors. -/
theorem columns_run {wpr wpi : ℝ} (hw : (1 : ℂ) + ⟨wpr, wpi⟩ = w) (data : Data)
    (hsize : 2 * (Q * (2 * M)) ≤ size) (hQ : Q < fuel) (hM : M < fuel) :
    ∃ s, forLoop (2 * M) 2 (twiddle size fuel (2 * (Q * (2 * M))) (2 * M) wpr wpi) fuel 1
        (1, 0, data) = .value s ∧ Replaced w M Q data M 0 s.2.2 := by
  have hbound : ∀ r, 1 + 2 * r < 2 * M ↔ r < M := fun r => by omega
  have hstart : Columns w M Q data 0 (1, 0, data) := by
    constructor
    · rw [pow_zero]
      rfl
    · intro q' _ r' _
      have hnone : ¬(r' < 0 ∨ r' = 0 ∧ q' < 0) := by omega
      rw [if_neg hnone, if_neg hnone]
      exact ⟨rfl, rfl⟩
  obtain ⟨s, hrun, hs⟩ := forLoop_invariant _ (Columns w M Q data) hbound
    (fun r s hr hs => hs.step hw hr hsize hQ) hstart hM
  exact ⟨s, hrun, hs.pairs⟩

/-! ### All passes -/

variable {isign : ℝ} {x : Nat → ℂ} {s l : Nat}

/-- The recurrence multiplies by `exp (i * theta)`. -/
theorem twiddle_factor (theta : ℝ) :
    (1 : ℂ) + ⟨-2.0 * Real.sin (0.5 * theta) * Real.sin (0.5 * theta), Real.sin theta⟩ =
      Complex.exp (theta * Complex.I) := by
  have hhalf : theta = 2 * (0.5 * theta) := by ring
  have hcos : Real.cos theta = 1 - 2 * Real.sin (0.5 * theta) ^ 2 := by
    conv_lhs => rw [hhalf]
    rw [Real.cos_two_mul, Real.cos_sq']
    ring
  have htwo : (2.0 : ℝ) = 2 := by norm_num
  apply Complex.ext
  · rw [Complex.exp_ofReal_mul_I_re, hcos, htwo]
    simp only [Complex.add_re, Complex.one_re]
    ring
  · rw [Complex.exp_ofReal_mul_I_im]
    simp

theorem turn_sq (isign : ℝ) (s : Nat) : turn isign (s + 1) ^ 2 = turn isign s := by
  rw [turn, turn, ← Complex.exp_nat_mul]
  congr 1
  push_cast
  rw [pow_succ]
  field_simp

theorem turn_half (hsign : isign = 1 ∨ isign = -1) (s : Nat) :
    turn isign (s + 1) ^ 2 ^ s = -1 := by
  have hangle : ((2 ^ s : ℕ) : ℂ) * (((isign * (2 * Real.pi / 2 ^ (s + 1)) : ℝ) : ℂ) * Complex.I) =
      isign * (Real.pi * Complex.I) := by
    push_cast
    rw [pow_succ]
    field_simp
  rw [turn, ← Complex.exp_nat_mul, hangle]
  rcases hsign with rfl | rfl
  · rw [Complex.ofReal_one, one_mul, Complex.exp_pi_mul_I]
  · rw [Complex.ofReal_neg, Complex.ofReal_one, neg_one_mul, Complex.exp_neg,
      Complex.exp_pi_mul_I, inv_neg_one]

/-- Each row of `2 ^ s` numbers is the transform of the numbers of `x` at every `2 ^ l`-th
place, from the place that belongs to the row on. -/
def Transformed (isign : ℝ) (x : Nat → ℂ) (s l : Nat) (data : Data) : Prop :=
  ∀ q < 2 ^ l, ∀ r < 2 ^ s, point data (q * 2 ^ s + r) =
    dftSum (turn isign s) (2 ^ s) (fun t => x (bitReverse l q + t * 2 ^ l)) r

/-- One pass makes a row out of two. -/
theorem Transformed.step {data' : Data} (h : Transformed isign x s (l + 1) data)
    (hsign : isign = 1 ∨ isign = -1)
    (hdata' : Replaced (turn isign (s + 1)) (2 ^ s) (2 ^ l) data (2 ^ s) 0 data') :
    Transformed isign x (s + 1) l data' := by
  intro q hq r hr
  have hpow : 2 ^ (s + 1) = 2 * 2 ^ s := pow_succ' 2 s
  have heven : ∀ r < 2 ^ s, point data (q * (2 * 2 ^ s) + r) =
      dftSum (turn isign (s + 1) ^ 2) (2 ^ s)
        (fun t => x (bitReverse l q + 2 * t * 2 ^ l)) r := by
    intro r hr
    have hrow := h (2 * q) (by rw [pow_succ]; omega) r hr
    have hplace : 2 * q * 2 ^ s + r = q * (2 * 2 ^ s) + r := by ring
    rw [hplace, bitReverse_even] at hrow
    rw [hrow, turn_sq]
    refine dftSum_congr fun t _ => congrArg x ?_
    ring
  have hodd : ∀ r < 2 ^ s, point data (q * (2 * 2 ^ s) + r + 2 ^ s) =
      dftSum (turn isign (s + 1) ^ 2) (2 ^ s)
        (fun t => x (bitReverse l q + (2 * t + 1) * 2 ^ l)) r := by
    intro r hr
    have hrow := h (2 * q + 1) (by rw [pow_succ]; omega) r hr
    have hplace : (2 * q + 1) * 2 ^ s + r = q * (2 * 2 ^ s) + r + 2 ^ s := by ring
    rw [hplace, bitReverse_odd] at hrow
    rw [hrow, turn_sq]
    refine dftSum_congr fun t _ => congrArg x ?_
    ring
  rw [hpow]
  rcases Nat.lt_or_ge r (2 ^ s) with hlow | hhigh
  · have hpair := (hdata' q hq r hlow).1
    rw [if_pos (Or.inl hlow), heven r hlow, hodd r hlow] at hpair
    rw [hpair, dftSum_two_mul]
  · obtain ⟨r, rfl⟩ := Nat.exists_eq_add_of_le' hhigh
    have hlow : r < 2 ^ s := by omega
    have hpair := (hdata' q hq r hlow).2
    rw [if_pos (Or.inl hlow), heven r hlow, hodd r hlow] at hpair
    rw [← Nat.add_assoc, hpair, dftSum_upper (turn_half hsign s)]

/-- The passes from rows of `2 ^ s` numbers on. -/
theorem passes_run {loops : Nat} (h : Transformed isign x s l data)
    (hsign : isign = 1 ∨ isign = -1) (hsize : 2 * 2 ^ (s + l) ≤ size)
    (hloops : 2 ^ (s + l) < loops) (hfuel : l < fuel) :
    ∃ data', passes size loops (2 * 2 ^ (s + l)) isign fuel (2 * 2 ^ s) data = .value data' ∧
      Transformed isign x (s + l) 0 data' := by
  induction l generalizing s fuel data with
  | zero =>
      obtain ⟨fuel, rfl⟩ := Nat.exists_eq_add_one_of_ne_zero (by omega : fuel ≠ 0)
      exact ⟨data, if_neg (Nat.lt_irrefl _), h⟩
  | succ l ih =>
      obtain ⟨fuel, rfl⟩ := Nat.exists_eq_add_one_of_ne_zero (by omega : fuel ≠ 0)
      have hn : 2 * 2 ^ (s + (l + 1)) = 2 * (2 ^ l * (2 * 2 ^ s)) := by ring
      have hlt : 2 * 2 ^ s < 2 * 2 ^ (s + (l + 1)) :=
        Nat.mul_lt_mul_of_pos_left (Nat.pow_lt_pow_right (by omega) (by omega)) two_pos
      have hstep : (2 * 2 ^ s) <<< 1 = 2 * 2 ^ (s + 1) := by
        rw [Nat.shiftLeft_eq, pow_one, pow_succ', mul_comm]
      have hsum : s + (l + 1) = s + 1 + l := by omega
      have hM : 2 ^ s < loops :=
        Nat.lt_of_le_of_lt (Nat.pow_le_pow_right two_pos (by omega)) hloops
      have hQ : 2 ^ l < loops :=
        Nat.lt_of_le_of_lt (Nat.pow_le_pow_right two_pos (by omega)) hloops
      have htheta : isign * (2 * Real.pi / ((2 * 2 ^ s : ℕ) : ℝ)) =
          isign * (2 * Real.pi / 2 ^ (s + 1)) := by
        push_cast
        rw [pow_succ']
      obtain ⟨r, hrun, hr⟩ := columns_run (w := turn isign (s + 1))
        (twiddle_factor (isign * (2 * Real.pi / 2 ^ (s + 1)))) data (hn ▸ hsize) hQ hM
      obtain ⟨data', hrest, hdata'⟩ := ih (h.step hsign hr) (by rw [← hsum]; exact hsize)
        (by rw [← hsum]; exact hloops) (Nat.lt_of_succ_lt_succ hfuel)
      rw [← hsum] at hrest hdata'
      refine ⟨data', ?_, hdata'⟩
      rw [passes, if_pos hlt]
      simp only [htheta, hstep]
      rw [hn] at hrest ⊢
      rw [hrun, value_bind]
      exact hrest

/-- `fastFourierTransform` on `2 ^ L` numbers. -/
theorem fastFourierTransform_run (data : Data) (hsign : isign = 1 ∨ isign = -1) (hL : L ≤ 30)
    (hsize : 2 * 2 ^ L ≤ size) (hfuel : 2 ^ L < fuel) :
    ∃ data', fastFourierTransform size fuel data (2 ^ L) isign = .value data' ∧
      ∀ k < 2 ^ L, point data' k = dftSum (turn isign L) (2 ^ L) (point data) k := by
  have hle : 2 ^ L ≤ 2 ^ 30 := Nat.pow_le_pow_right two_pos hL
  have hn : uint (2 ^ L <<< 1) = 2 * 2 ^ L := by
    rw [uint, Nat.shiftLeft_eq, pow_one, mul_comm]
    exact Nat.mod_eq_of_lt (by omega)
  obtain ⟨r, hreorder, hr⟩ := reorder_run data hsize hfuel
  have hstart : Transformed isign (point data) 0 L r.2 := by
    intro q hq t ht
    obtain rfl : t = 0 := by
      rw [pow_zero] at ht
      omega
    rw [pow_zero, dftSum_one, Nat.mul_one, Nat.add_zero, Nat.zero_mul, Nat.add_zero]
    exact hr q hq
  have hLfuel : L < fuel := Nat.lt_trans Nat.lt_two_pow_self hfuel
  have hrows : 2 * 2 ^ (0 + L) ≤ size := by
    rw [Nat.zero_add]
    exact hsize
  have hloops : 2 ^ (0 + L) < fuel := by
    rw [Nat.zero_add]
    exact hfuel
  obtain ⟨data', hpasses, hdata'⟩ := passes_run hstart hsign hrows hloops hLfuel
  rw [Nat.zero_add, pow_zero, Nat.mul_one] at hpasses
  rw [Nat.zero_add] at hdata'
  refine ⟨data', ?_, fun k hk => ?_⟩
  · rw [fastFourierTransform, hn, hreorder, value_bind]
    exact hpasses
  · have hrow := hdata' 0 Nat.one_pos k hk
    rw [Nat.zero_mul, Nat.zero_add] at hrow
    rw [hrow]
    refine dftSum_congr fun t _ => congrArg (point data) ?_
    rw [bitReverse_zero, Nat.zero_add, pow_zero, Nat.mul_one]

end FourierTransform

end NewLispNeo
