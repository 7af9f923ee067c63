/-
When `fft` and `ifft` of a list are its discrete Fourier transform and the inverse.
-/
import Mathlib.Data.List.GetD
import Mathlib.RingTheory.RootsOfUnity.Complex
import NewLispNeo.FourierPasses

namespace NewLispNeo

namespace FourierTransform

open FourierSum Outcome

variable {size fuel n N a bound : Nat} {data : Data} {isign : ℝ} {zs : List Number}
  {f g : Nat → ℂ} {list : List ListCell}

/-! ### The number of points -/

theorem le_points (n : Nat) : n ≤ points n := Nat.le_pow_clog Nat.one_lt_two n

theorem points_pos (n : Nat) : 0 < points n := Nat.two_pow_pos _

theorem clog_le (hn : n ≤ 2 ^ 30) : Nat.clog 2 n ≤ 30 := Nat.clog_le_of_le_pow hn

theorem uint_eq (hn : n < 2 ^ 32) : uint n = n := Nat.mod_eq_of_lt hn

/-- The padding doubles up to the least power of two. -/
theorem padding_run (hn : n ≤ 2 ^ 30) (hfuel : 31 < fuel) :
    padding n fuel 1 = .value (points n) := by
  have hclog := clog_le hn
  have hrun : ∀ r a fuel, a + r = Nat.clog 2 n → r < fuel →
      padding n fuel (2 ^ a) = .value (points n) := by
    intro r
    induction r with
    | zero =>
        intro a fuel ha hlt
        obtain ⟨fuel, rfl⟩ := Nat.exists_eq_add_one_of_ne_zero (by omega : fuel ≠ 0)
        rw [Nat.add_zero] at ha
        have hle := le_points n
        rw [points, ← ha] at hle
        rw [padding, if_neg (Nat.not_lt.mpr hle), points, ha]
    | succ r ih =>
        intro a fuel ha hlt
        obtain ⟨fuel, rfl⟩ := Nat.exists_eq_add_one_of_ne_zero (by omega : fuel ≠ 0)
        have hlow : 2 ^ a < n := by
          refine Nat.lt_of_not_le fun hle => ?_
          have hclog' := Nat.clog_le_of_le_pow hle
          omega
        have hnext : uint (2 ^ a <<< 1) = 2 ^ (a + 1) := by
          rw [Nat.shiftLeft_eq, pow_one, ← pow_succ]
          exact uint_eq (Nat.pow_lt_pow_right Nat.one_lt_two (by omega))
        rw [padding, if_pos hlow, hnext]
        exact ih (a + 1) fuel (by omega) (by omega)
  exact hrun (Nat.clog 2 n) 0 fuel (Nat.zero_add _) (by omega)

/-! ### The loops of `fft` -/

theorem put_eq {i : Nat} (hi : i < size) (x : ℝ) :
    put size data i x = .value (Function.update data i x) := if_pos hi

/-- Both parts of one number are written. -/
theorem put_point (hsize : 2 * a + 1 < size) (data : Data) (re im : ℝ) :
    ∃ data', (put size data (2 * a) re >>= fun data => put size data (2 * a + 1) im) =
        .value data' ∧
      ∀ k, point data' k = if k = a then ⟨re, im⟩ else point data k := by
  rw [put_eq (by omega), value_bind, put_eq hsize]
  refine ⟨_, rfl, fun k => ?_⟩
  rw [point_update_im, point_update_re]
  by_cases hka : k = a
  · rw [if_pos hka, if_pos hka, if_pos hka]
  · rw [if_neg hka, if_neg hka, if_neg hka]

theorem fill_cons (z : Number) (rest : List ListCell) (i : Nat) (data : Data) (hi : i < bound) :
    fill size bound (z.cell :: rest) i data =
      (put size data i z.value.re >>= fun data => put size data (i + 1) z.value.im) >>=
        fun data => fill size bound rest (i + 2) data := by
  cases z with
  | real x => rw [Number.cell, fill, if_pos hi, bind_assoc]; rfl
  | complex re im => rw [Number.cell, fill, if_pos hi, bind_assoc]; rfl

/-- The numbers of the list go to the block in order. -/
theorem fill_run (zs : List Number) (a : Nat) (data : Data)
    (hsize : 2 * (a + zs.length) ≤ size) :
    ∃ data', fill size (2 * (a + zs.length)) (zs.map Number.cell) (2 * a) data = .value data' ∧
      ∀ k, point data' k =
        if a ≤ k ∧ k < a + zs.length then padded zs (k - a) else point data k := by
  induction zs generalizing a data with
  | nil =>
      refine ⟨data, ?_, fun k => ?_⟩
      · rw [List.map_nil, fill, List.length_nil, if_neg (by omega)]
      · rw [List.length_nil, if_neg (by omega)]
  | cons z zs ih =>
      rw [List.length_cons] at hsize ⊢
      have hsum : a + (zs.length + 1) = a + 1 + zs.length := by omega
      rw [hsum] at hsize ⊢
      obtain ⟨data₁, hput, hdata₁⟩ := put_point (show 2 * a + 1 < size by omega) data
        z.value.re z.value.im
      obtain ⟨data', hfill, hdata'⟩ := ih (a + 1) data₁ hsize
      refine ⟨data', ?_, fun k => ?_⟩
      · rw [List.map_cons, fill_cons _ _ _ _ (by omega), hput, value_bind]
        exact hfill
      · rw [hdata', hdata₁]
        by_cases hka : k = a
        · subst hka
          rw [if_neg (by omega), if_pos rfl, if_pos (by omega), Nat.sub_self]
          rfl
        · rw [if_neg hka]
          by_cases hin : a + 1 ≤ k ∧ k < a + 1 + zs.length
          · rw [if_pos hin, if_pos (by omega)]
            obtain ⟨t, rfl⟩ := Nat.exists_eq_add_of_le hin.1
            have hleft : a + 1 + t - (a + 1) = t := by omega
            have hright : a + 1 + t - a = t + 1 := by omega
            rw [hleft, hright]
            rfl
          · rw [if_neg hin, if_neg (by omega)]

/-- A loop that writes one double after the other. -/
theorem put_run {first : Nat} (x : ℝ → ℝ) (data : Data) (hfirst : first ≤ bound)
    (hsize : bound ≤ size) (hfuel : bound < fuel) :
    ∃ data', forLoop bound 1 (fun i data => put size data i (x (data i))) fuel first data =
        .value data' ∧
      ∀ i, data' i = if first ≤ i ∧ i < bound then x (data i) else data i := by
  have hbound : ∀ c, first + 1 * c < bound ↔ c < bound - first := fun c => by omega
  obtain ⟨data', hrun, hdata'⟩ := forLoop_invariant
    (fun i data => put size data i (x (data i)))
    (fun c data' => ∀ i, data' i =
      if first ≤ i ∧ i < first + c then x (data i) else data i) hbound
    (fun c data₁ hc hdata₁ => by
      refine ⟨_, put_eq (by omega) _, fun i => ?_⟩
      rw [Nat.one_mul]
      by_cases hi : i = first + c
      · subst hi
        rw [Function.update_self, if_pos (by omega), hdata₁, if_neg (by omega)]
      · rw [Function.update_of_ne hi, hdata₁]
        refine if_congr ?_ rfl rfl
        omega)
    (fun i => (if_neg (by omega)).symm) (by omega : bound - first < fuel)
  refine ⟨data', hrun, fun i => ?_⟩
  rw [hdata', Nat.add_sub_cancel' hfirst]

theorem pairs_succ (N : Nat) (f : Nat → ℂ) :
    pairs (N + 1) f = pairs N f ++ [makeListFromFloats (f N).re (f N).im] := by
  rw [pairs, List.range_succ, List.map_append]
  rfl

theorem pairs_eq_iff : pairs N f = pairs N g ↔ ∀ k < N, f k = g k := by
  rw [pairs, pairs, List.map_inj_left]
  refine forall_congr' fun k => ?_
  rw [List.mem_range]
  refine imp_congr_right fun _ => ?_
  simp [makeListFromFloats, Complex.ext_iff]

theorem pairs_congr (h : ∀ k < N, f k = g k) : pairs N f = pairs N g := pairs_eq_iff.mpr h

/-- The numbers of the block go to the list in order. -/
theorem append_run (data : Data) (hN : 0 < N) (hsize : 2 * N ≤ size) (hfuel : N < fuel) :
    (appendPair size data 0 [] >>= fun list =>
      forLoop (2 * N) 2 (appendPair size data) fuel 2 list) = .value (pairs N (point data)) := by
  have happend : ∀ c, 2 * c + 1 < size →
      appendPair size data (2 * c) (pairs c (point data)) =
        .value (pairs (c + 1) (point data)) := by
    intro c hc
    rw [appendPair, if_pos hc, pairs_succ]
    rfl
  have hbound : ∀ c, 2 + 2 * c < 2 * N ↔ c < N - 1 := fun c => by omega
  have hzero := happend 0 (by omega)
  rw [Nat.mul_zero] at hzero
  obtain ⟨list, hrun, hlist⟩ := forLoop_invariant (appendPair size data)
    (fun c list => list = pairs (c + 1) (point data)) hbound (fun c list hc hlist => by
      refine ⟨_, ?_, rfl⟩
      have hplace : 2 + 2 * c = 2 * (c + 1) := by ring
      rw [hlist, hplace]
      exact happend (c + 1) (by omega)) rfl (by omega : N - 1 < fuel)
  rw [Nat.sub_add_cancel hN] at hlist
  rw [← hlist, ← hrun]
  exact congrArg (· >>= _) hzero

theorem padded_of_le {k : Nat} (hk : zs.length ≤ k) : padded zs k = 0 := by
  rw [padded, List.getD_eq_default]
  rw [List.length_map]
  exact hk

/-- The transform with the division of `fft`, which leaves out the places behind the list. -/
noncomputable def divided (isign : ℝ) (n N : Nat) (f : Nat → ℂ) (k : Nat) : ℂ :=
  if isign = -1 ∧ k < n then f k / N else f k

/-- The division of the first `n` numbers, which is made for `ifft` only. -/
theorem divide_run (isign : ℝ) (data : Data) (hn : n ≤ N) (hsize : 2 * N ≤ size)
    (hfuel : 2 * N < fuel) :
    ∃ data', (if isign = -1 then
        forLoop (2 * n) 1 (fun i data => put size data i (data i / N)) fuel 0 data
      else .value data) = .value data' ∧
      ∀ k, point data' k = divided isign n N (point data) k := by
  by_cases hsign : isign = -1
  · obtain ⟨data', hrun, hdata'⟩ := put_run (fun x => x / N) data
      (Nat.zero_le (2 * n)) (by omega : 2 * n ≤ size) (by omega : 2 * n < fuel)
    rw [if_pos hsign]
    refine ⟨data', hrun, fun k => ?_⟩
    rw [divided]
    by_cases hk : k < n
    · rw [if_pos ⟨hsign, hk⟩, point, hdata', hdata', if_pos (by omega), if_pos (by omega)]
      apply Complex.ext
      · rw [Complex.div_natCast_re]
        rfl
      · rw [Complex.div_natCast_im]
        rfl
    · rw [if_neg (fun h => hk h.2), point, hdata', hdata', if_neg (by omega), if_neg (by omega)]
      rfl
  · rw [if_neg hsign]
    refine ⟨data, rfl, fun k => ?_⟩
    rw [divided, if_neg (fun h => hsign h.1)]

/-- `fft` of a list of numbers. -/
theorem fft_run (hsign : isign = 1 ∨ isign = -1) (hlength : zs.length ≤ 2 ^ 30)
    (hfuel : 2 * points zs.length + 31 < fuel) :
    fft fuel (zs.map Number.cell) isign = .value (pairs (points zs.length)
      (divided isign zs.length (points zs.length) (dftSum
        (turn isign (Nat.clog 2 zs.length)) (points zs.length) (padded zs)))) := by
  have hle := le_points zs.length
  have hmax : points zs.length ≤ 2 ^ 30 := Nat.pow_le_pow_right two_pos (clog_le hlength)
  have hpos := points_pos zs.length
  have hn : uint (zs.map Number.cell).length = zs.length := by
    rw [List.length_map]
    exact uint_eq (by omega)
  have hn2 : uint (zs.length * 2) = 2 * zs.length := by
    rw [uint_eq (by omega)]
    omega
  have hN2 : uint (points zs.length * 2) = 2 * points zs.length := by
    rw [uint_eq (by omega)]
    omega
  have hpad := padding_run hlength (show 31 < fuel by omega)
  obtain ⟨data₁, hfill, hdata₁⟩ := fill_run zs 0 (fun _ => 0)
    (show 2 * (0 + zs.length) ≤ 2 * points zs.length by omega)
  obtain ⟨data₂, hclear, hdata₂⟩ := put_run (fun _ => 0) data₁
    (show 2 * (0 + zs.length) ≤ 2 * points zs.length by omega)
    (Nat.le_refl (2 * points zs.length))
    (show 2 * points zs.length < fuel by omega)
  have hpoint : ∀ k < points zs.length, point data₂ k = padded zs k := by
    intro k hk
    by_cases hin : k < zs.length
    · have hsame : point data₂ k = point data₁ k := by
        rw [point, hdata₂, hdata₂, if_neg (by omega), if_neg (by omega)]
        rfl
      rw [hsame, hdata₁, if_pos (by omega), Nat.sub_zero]
    · rw [padded_of_le (Nat.le_of_not_lt hin), point, hdata₂, hdata₂, if_pos (by omega),
        if_pos (by omega)]
      rfl
  obtain ⟨data₃, htransform, hdata₃⟩ := fastFourierTransform_run data₂ hsign
    (clog_le hlength) (Nat.le_refl (2 * points zs.length))
    (show points zs.length < fuel by omega)
  obtain ⟨data₄, hdivide, hdata₄⟩ := divide_run isign data₃ hle
    (Nat.le_refl (2 * points zs.length)) (show 2 * points zs.length < fuel by omega)
  have happend := append_run data₄ hpos (Nat.le_refl (2 * points zs.length))
    (show points zs.length < fuel by omega)
  change fastFourierTransform _ fuel data₂ (points zs.length) isign = _ at htransform
  rw [Nat.zero_add] at hfill hclear
  rw [Nat.mul_zero] at hfill
  rw [fft, hn, hpad, value_bind]
  simp only [hn2, hN2, hfill, hclear, htransform, hdivide, happend, value_bind]
  refine congrArg Outcome.value (pairs_congr fun k hk => ?_)
  have htransformed : point data₃ k = dftSum (turn isign (Nat.clog 2 zs.length))
      (points zs.length) (padded zs) k :=
    (hdata₃ k hk).trans (dftSum_congr fun t ht => hpoint t ht)
  rw [hdata₄, divided, divided, htransformed]

/-! ### The transform of a list -/

theorem Returns.unique {run : Nat → Outcome FftError (List ListCell)} {list' : List ListCell}
    (h : Returns run list) (h' : Returns run list') : list = list' := by
  obtain ⟨fuel, hrun⟩ := h
  obtain ⟨fuel', hrun'⟩ := h'
  have heq := (hrun _ (Nat.le_max_left fuel fuel')).symm.trans
    (hrun' _ (Nat.le_max_right fuel fuel'))
  cases heq
  rfl

theorem root_eq (n : Nat) : turn 1 (Nat.clog 2 n) = root (points n) := by
  rw [turn, root, points]
  congr 1
  push_cast
  ring

theorem root_inv_eq (n : Nat) : turn (-1) (Nat.clog 2 n) = (root (points n))⁻¹ := by
  rw [turn, root, points, ← Complex.exp_neg]
  congr 1
  push_cast
  ring

theorem root_isPrimitiveRoot (n : Nat) : IsPrimitiveRoot (root (points n)) (points n) :=
  Complex.isPrimitiveRoot_exp _ (points_pos n).ne'

theorem fft_returns (hlength : zs.length ≤ 2 ^ 30) :
    Returns (p_fft (zs.map Number.cell)) (pairs (points zs.length)
      (dftSum (root (points zs.length)) (points zs.length) (padded zs))) := by
  refine ⟨2 * points zs.length + 32, fun fuel hfuel => ?_⟩
  rw [p_fft, fft_run (Or.inl rfl) hlength hfuel, root_eq]
  refine congrArg Outcome.value (pairs_congr fun k _ => ?_)
  rw [divided, if_neg (by norm_num)]

theorem ifft_returns (hlength : zs.length ≤ 2 ^ 30) :
    Returns (p_ifft (zs.map Number.cell)) (pairs (points zs.length)
      (divided (-1) zs.length (points zs.length)
        (dftSum (root (points zs.length))⁻¹ (points zs.length) (padded zs)))) := by
  refine ⟨2 * points zs.length + 32, fun fuel hfuel => ?_⟩
  rw [p_ifft, fft_run (Or.inr rfl) hlength hfuel, root_inv_eq]

/-- The sum over the padded list is a value of the polynomial of the list. -/
theorem dftSum_padded (w : ℂ) (k : Nat) :
    dftSum w (points zs.length) (padded zs) k = 0 ↔ Vanishes zs (w ^ k) := by
  rw [dftSum_extend (le_points zs.length) fun t ht _ => padded_of_le ht, Vanishes, dftSum]
  simp only [pow_mul]

/-- The list that `fft` returns has the numbers of the transform. -/
theorem inverse_returns (hlength : zs.length ≤ 2 ^ 30) :
    Returns (p_ifft (pairs (points zs.length)
        (dftSum (root (points zs.length)) (points zs.length) (padded zs))))
      (pairs (points zs.length) (padded zs)) := by
  have hmax : points zs.length ≤ 2 ^ 30 := Nat.pow_le_pow_right two_pos (clog_le hlength)
  generalize hF : dftSum (root (points zs.length)) (points zs.length) (padded zs) = F
  have hcells : pairs (points zs.length) F =
      ((List.range (points zs.length)).map fun k => Number.complex (F k).re (F k).im).map
        Number.cell := by
    rw [pairs, List.map_map]
    rfl
  have hlen : ((List.range (points zs.length)).map fun k =>
      Number.complex (F k).re (F k).im).length = points zs.length := by
    rw [List.length_map, List.length_range]
  have hpoints : points (points zs.length) = points zs.length := by
    rw [points, points, Nat.clog_pow 2 _ Nat.one_lt_two]
  have hpadded : ∀ k < points zs.length, padded ((List.range (points zs.length)).map fun k =>
      Number.complex (F k).re (F k).im) k = F k := by
    intro k hk
    rw [padded, List.getD_eq_getElem?_getD]
    simp [hk, Number.value]
  have hreturns := ifft_returns (hlen.le.trans hmax)
  rw [← hcells, hlen, hpoints] at hreturns
  obtain ⟨fuel₀, hrun⟩ := hreturns
  refine ⟨fuel₀, fun fuel hfuel => (hrun fuel hfuel).trans (congrArg Outcome.value
    (pairs_congr fun k hk => ?_))⟩
  rw [divided, if_pos ⟨rfl, hk⟩, dftSum_congr hpadded, ← hF,
    dftSum_dftSum (root_isPrimitiveRoot zs.length) _ hk]
  exact mul_div_cancel_left₀ _ (Nat.cast_ne_zero.mpr (points_pos zs.length).ne')

/-- Up to `2 ^ 30` numbers, only the places behind the list can be wrong. -/
theorem transforms_of_le (hlength : zs.length ≤ 2 ^ 30) :
    Transforms zs ↔ ∀ k, zs.length ≤ k → k < points zs.length →
      Vanishes zs ((root (points zs.length))⁻¹ ^ k) := by
  constructor
  · intro h k hk hkN
    rw [← dftSum_padded]
    have heq := pairs_eq_iff.mp ((ifft_returns hlength).unique h.backward) k hkN
    rw [divided, if_neg (fun hlt => absurd hlt.2 (Nat.not_lt.mpr hk))] at heq
    rcases Nat.eq_zero_or_pos k with rfl | hpos
    · have hnil : zs = [] := List.eq_nil_of_length_eq_zero (Nat.eq_zero_of_le_zero hk)
      subst hnil
      exact (dftSum_padded _ 0).mpr rfl
    · have hN : ((points zs.length : ℕ) : ℂ) ≠ 0 := Nat.cast_ne_zero.mpr (by omega)
      have hN1 : ((points zs.length : ℕ) : ℂ) - 1 ≠ 0 := by
        rw [sub_ne_zero, Nat.cast_ne_one]
        omega
      rw [eq_div_iff hN] at heq
      refine (mul_eq_zero.mp ?_).resolve_right hN1
      rw [mul_sub, mul_one, heq, sub_self]
  · intro h
    refine ⟨fft_returns hlength, ?_, _, fft_returns hlength, inverse_returns hlength⟩
    obtain ⟨fuel₀, hrun⟩ := ifft_returns hlength
    refine ⟨fuel₀, fun fuel hfuel => (hrun fuel hfuel).trans (congrArg Outcome.value
      (pairs_congr fun k hk => ?_))⟩
    rw [divided]
    split
    · rfl
    · next hnot =>
        have hle : zs.length ≤ k := Nat.le_of_not_lt fun hlt => hnot ⟨rfl, hlt⟩
        rw [(dftSum_padded _ k).mpr (h k hle hk), zero_div]

/-! ### Lists that are too long -/

theorem padding_zero (hn : 0 < n) : padding n fuel 0 ≠ .value N := by
  induction fuel with
  | zero =>
      intro hN
      cases hN
  | succ fuel ih =>
      rw [padding, if_pos hn]
      exact ih

/-- What the padding ends with is a power of two in 32 bits. -/
theorem padding_pow {a : Nat} (ha : a ≤ 31) (hN : padding n fuel (2 ^ a) = .value N) :
    ∃ b ≤ 31, N = 2 ^ b := by
  induction fuel generalizing a with
  | zero => cases hN
  | succ fuel ih =>
      rw [padding] at hN
      split at hN
      · next hlt =>
          rw [Nat.shiftLeft_eq, pow_one, ← pow_succ] at hN
          rcases Nat.lt_or_eq_of_le ha with hlow | rfl
          · rw [uint_eq (Nat.pow_lt_pow_right Nat.one_lt_two (by omega))] at hN
            exact ih hlow hN
          · exact absurd hN (padding_zero (Nat.zero_lt_of_lt hlt))
      · cases hN
        exact ⟨a, ha, rfl⟩

theorem appendPair_length {i : Nat} {list' : List ListCell}
    (h : appendPair size data i list = .value list') : list'.length = list.length + 1 := by
  rw [appendPair] at h
  split at h
  · cases h
    rw [List.length_append]
    rfl
  · cases h

/-- The loop adds a number for every second double at most. -/
theorem append_length {i : Nat} {list' : List ListCell}
    (h : forLoop (2 * N) 2 (appendPair size data) fuel i list = .value list') :
    list'.length ≤ list.length + (2 * N + 1 - i) / 2 := by
  induction fuel generalizing i list with
  | zero => cases h
  | succ fuel ih =>
      rw [forLoop_succ] at h
      split at h
      · next hlt =>
          obtain ⟨list₁, happend, hrest⟩ := bind_eq_value_iff.mp h
          have hlength := appendPair_length happend
          have hle := ih hrest
          omega
      · cases h
        exact Nat.le_add_right _ _

/-- `fft` cannot return more than `2 ^ 30` numbers. -/
theorem fft_length {list' : List ListCell} (h : fft fuel list isign = .value list') :
    list'.length ≤ 2 ^ 30 := by
  rw [fft] at h
  obtain ⟨N, hN, h⟩ := bind_eq_value_iff.mp h
  obtain ⟨b, hb, rfl⟩ := padding_pow (a := 0) (Nat.zero_le 31) hN
  obtain ⟨data₁, -, h⟩ := bind_eq_value_iff.mp h
  obtain ⟨data₂, -, h⟩ := bind_eq_value_iff.mp h
  obtain ⟨data₃, -, h⟩ := bind_eq_value_iff.mp h
  obtain ⟨data₄, -, h⟩ := bind_eq_value_iff.mp h
  obtain ⟨list₀, hfirst, h⟩ := bind_eq_value_iff.mp h
  rcases Nat.lt_or_eq_of_le hb with hlow | rfl
  · have hmax : 2 ^ b ≤ 2 ^ 30 := Nat.pow_le_pow_right two_pos (by omega)
    have hsize : uint (2 ^ b * 2) = 2 * 2 ^ b := by
      rw [uint_eq (by omega), mul_comm]
    rw [hsize] at h
    have hpos : 0 < 2 ^ b := Nat.two_pow_pos b
    have hlength := append_length h
    have hone := appendPair_length hfirst
    rw [List.length_nil] at hone
    omega
  · cases hfirst

/-- `fft` and `ifft` are the transform and its inverse iff the list has at most `2 ^ 30`
numbers and the places behind it need no division. -/
theorem transforms_iff (zs : List Number) :
    Transforms zs ↔ zs.length ≤ 2 ^ 30 ∧ ∀ k, zs.length ≤ k → k < points zs.length →
      Vanishes zs ((root (points zs.length))⁻¹ ^ k) := by
  constructor
  · intro h
    have hlength : zs.length ≤ 2 ^ 30 := by
      obtain ⟨fuel, hrun⟩ := h.forward
      have hle := fft_length (hrun fuel (Nat.le_refl fuel))
      rw [pairs, List.length_map, List.length_range] at hle
      exact Nat.le_trans (le_points _) hle
    exact ⟨hlength, (transforms_of_le hlength).mp h⟩
  · rintro ⟨hlength, hvanishes⟩
    exact (transforms_of_le hlength).mpr hvanishes

/-- `(ifft '(1 0 0))` has `(1 0)` as its last number. -/
theorem not_transforms_three : ¬Transforms [.real 1, .real 0, .real 0] := by
  intro h
  have hlength : [Number.real 1, .real 0, .real 0].length ≤ 2 ^ 30 := by decide
  have hpoints : points [Number.real 1, .real 0, .real 0].length = 4 := by decide
  have hsum := (transforms_of_le hlength).mp h 3 (Nat.le_refl 3) (by rw [hpoints]; decide)
  have hre := congrArg Complex.re hsum
  simp [padded, Finset.sum_range_succ, Number.value] at hre

end FourierTransform

end NewLispNeo
