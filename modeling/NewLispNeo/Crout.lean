/-
The decomposition `ludcmp` column by column: what each of its loops does to the block, and the
triangles that are in it in the end.
-/
import NewLispNeo.Matrices
import NewLispNeo.TriangularFactors

namespace NewLispNeo

namespace Matrices

open Finset TriangularFactors

/-! ### Loops -/

section Loops

variable {σ : Type} {first last : Nat} {s : σ}

/-- What holds before the first round and is kept by each holds at the end. -/
theorem forUp_invariant (body : Nat → σ → σ) (Inv : Nat → σ → Prop) (hlast : first ≤ last + 1)
    (hstart : Inv first s)
    (hbody : ∀ i s, first ≤ i → i ≤ last → Inv i s → Inv (i + 1) (body i s)) :
    Inv (last + 1) (forUp first last body s) := by
  have hrun : ∀ count i s, i + count = last + 1 → first ≤ i → Inv i s →
      Inv (last + 1) ((List.range' i count).foldl (fun s i => body i s) s) := by
    intro count
    induction count with
    | zero =>
        intro i s hi _ hinv
        exact hi ▸ hinv
    | succ count ih =>
        intro i s hi hfirst hinv
        exact ih (i + 1) (body i s) (by omega) (by omega) (hbody i s hfirst (by omega) hinv)
  exact hrun _ first s (by omega) le_rfl hstart

/-- The same where a round can fail. -/
theorem foldlM_invariant (body : σ → Nat → Option σ) (Inv : Nat → σ → Prop)
    (hbody : ∀ i s s', first ≤ i → i ≤ last → Inv i s → body s i = some s' → Inv (i + 1) s')
    (hlast : first ≤ last + 1) (hstart : Inv first s) :
    (∃ s', (List.range' first (last + 1 - first)).foldlM body s = some s' ∧ Inv (last + 1) s') ∨
      ((List.range' first (last + 1 - first)).foldlM body s = none ∧
        ∃ i s, first ≤ i ∧ i ≤ last ∧ Inv i s ∧ body s i = none) := by
  have hrun : ∀ count i s, i + count = last + 1 → first ≤ i → Inv i s →
      (∃ s', (List.range' i count).foldlM body s = some s' ∧ Inv (last + 1) s') ∨
        ((List.range' i count).foldlM body s = none ∧
          ∃ i s, first ≤ i ∧ i ≤ last ∧ Inv i s ∧ body s i = none) := by
    intro count
    induction count with
    | zero =>
        intro i s hi _ hinv
        exact .inl ⟨s, rfl, hi ▸ hinv⟩
    | succ count ih =>
        intro i s hi hfirst hinv
        rw [List.range'_succ, List.foldlM_cons]
        cases hround : body s i with
        | none => exact .inr ⟨rfl, i, s, hfirst, by omega, hinv, hround⟩
        | some s₁ =>
            exact ih (i + 1) s₁ (by omega) (by omega) (hbody i s s₁ hfirst (by omega) hinv hround)
  exact hrun _ first s (by omega) le_rfl hstart

theorem forDown_invariant (body : Nat → σ → σ) (Inv : Nat → σ → Prop) {n : Nat}
    (hstart : Inv n s) (hbody : ∀ i s, i < n → Inv (i + 1) s → Inv i (body (i + 1) s)) :
    Inv 0 (forDown body n s) := by
  induction n generalizing s with
  | zero => exact hstart
  | succ n ih =>
      exact ih (hbody n s (by omega) hstart) fun i s hi hinv => hbody i s (by omega) hinv

variable {K : Type}

theorem forUp_sub [AddCommGroup K] (f : Nat → K) (x : K) (hlast : first ≤ last + 1) :
    forUp first last (fun k sum => sum - f k) x = x - ∑ k ∈ Ico first (last + 1), f k := by
  refine forUp_invariant _ (fun i sum => sum = x - ∑ k ∈ Ico first i, f k) hlast (by simp) ?_
  rintro i sum hi - rfl
  rw [sum_Ico_succ_top hi, sub_sub]

theorem forUp_add [AddCommMonoid K] (f : Nat → K) (hlast : first ≤ last + 1) :
    forUp first last (fun k sum => sum + f k) 0 = ∑ k ∈ Ico first (last + 1), f k := by
  refine forUp_invariant _ (fun i sum => sum = ∑ k ∈ Ico first i, f k) hlast (by simp) ?_
  rintro i sum hi - rfl
  rw [sum_Ico_succ_top hi]

theorem forUp_mul [CommMonoid K] (f : Nat → K) (x : K) (hlast : first ≤ last + 1) :
    forUp first last (fun k d => d * f k) x = x * ∏ k ∈ Ico first (last + 1), f k := by
  refine forUp_invariant _ (fun i d => d = x * ∏ k ∈ Ico first i, f k) hlast (by simp) ?_
  rintro i d hi - rfl
  rw [prod_Ico_succ_top hi, mul_assoc]

end Loops

section Put

variable {K : Type} {a : Block K} {i j i' j' : Nat} {x : K}

@[simp] theorem put_self : put a i j x i j = x := by simp [put]

theorem put_of_ne_row (h : i' ≠ i) : put a i j x i' j' = a i' j' := by
  simp [put, Function.update_of_ne h]

theorem put_of_ne_column (h : j' ≠ j) : put a i j x i' j' = a i' j' := by
  by_cases hi : i' = i
  · subst hi
    simp [put, Function.update_of_ne h]
  · exact put_of_ne_row hi

end Put

/-! ### The scale of each row -/

section Scales

variable {K : Type} [Field K] [LinearOrder K] [IsStrictOrderedRing K] {a : Block K} {n i : Nat}

theorem rowBig_spec (a : Block K) (n i : Nat) :
    0 ≤ rowBig a n i ∧ ∀ j, 1 ≤ j → j ≤ n → |a i j| ≤ rowBig a n i := by
  have h := forUp_invariant (fun j big => if big < |a i j| then |a i j| else big)
    (fun k big => 0 ≤ big ∧ ∀ j, 1 ≤ j → j < k → |a i j| ≤ big) (show 1 ≤ n + 1 by omega)
    ⟨le_refl (0 : K), fun j hj hlt => by omega⟩ ?_
  · exact ⟨h.1, fun j hj hjn => h.2 j hj (by omega)⟩
  · rintro k big hk - ⟨hpos, hbound⟩
    split_ifs with hlt
    · refine ⟨abs_nonneg _, fun j hj hjk => ?_⟩
      by_cases heq : j = k
      · rw [heq]
      · exact (hbound j hj (by omega)).trans hlt.le
    · refine ⟨hpos, fun j hj hjk => ?_⟩
      by_cases heq : j = k
      · rw [heq]
        exact not_lt.mp hlt
      · exact hbound j hj (by omega)

/-- Only a row of zeros stops the search for the scales. -/
theorem rowScales_spec (a : Block K) (n : Nat) :
    (∃ vv, rowScales a n = some vv ∧ ∀ i, 1 ≤ i → i ≤ n → 0 < vv i) ∨
      (rowScales a n = none ∧ ∃ i, 1 ≤ i ∧ i ≤ n ∧ ∀ j, 1 ≤ j → j ≤ n → a i j = 0) := by
  have h := foldlM_invariant (fun vv i => if rowBig a n i = 0 then none
      else some (Function.update vv i (1 / rowBig a n i)))
    (fun k (vv : Nat → K) => ∀ i, 1 ≤ i → i < k → 0 < vv i) ?_ (show 1 ≤ n + 1 by omega)
    (s := fun _ => 0) (fun i hi hlt => by omega)
  · rcases h with ⟨vv, hvv, hpos⟩ | ⟨hnone, i, vv, hi, hin, -, hzero⟩
    · exact .inl ⟨vv, hvv, fun i hi hin => hpos i hi (by omega)⟩
    · refine .inr ⟨hnone, i, hi, hin, fun j hj hjn => ?_⟩
      have hbig : rowBig a n i = 0 := by
        by_contra hne
        rw [if_neg hne] at hzero
        cases hzero
      exact abs_nonpos_iff.mp (hbig ▸ (rowBig_spec a n i).2 j hj hjn)
  · intro k vv vv' hk hkn hpos hround i hi hik
    split_ifs at hround with hbig
    obtain rfl := Option.some.inj hround
    by_cases heq : i = k
    · subst heq
      rw [Function.update_self]
      exact one_div_pos.mpr (lt_of_le_of_ne (rowBig_spec a n i).1 (Ne.symm hbig))
    · rw [Function.update_of_ne heq]
      exact hpos i hi (by omega)

end Scales

/-! ### One column -/

section Column

variable {K : Type} [Field K] {a : Block K} {n i j imax : Nat}

theorem reduced_eq {bound : Nat} (hbound : 1 ≤ bound) :
    reduced a i j bound = a i j - ∑ k ∈ Ico 1 bound, a i k * a k j := by
  obtain ⟨bound, rfl⟩ := Nat.exists_eq_add_of_le' hbound
  exact forUp_sub (fun k => a i k * a k j) (a i j) (by omega)

/-- Above the diagonal each number is reduced by those above it. -/
theorem reduceAbove_spec (a : Block K) (hj : 1 ≤ j) :
    (∀ i k, k ≠ j → reduceAbove a j i k = a i k) ∧
    (∀ i, j ≤ i → reduceAbove a j i j = a i j) ∧
    ∀ i, 1 ≤ i → i < j →
      ∑ m ∈ Ico 1 i, a i m * reduceAbove a j m j + reduceAbove a j i j = a i j := by
  obtain ⟨j, rfl⟩ := Nat.exists_eq_add_of_le' hj
  refine forUp_invariant (fun i s => put s i (j + 1) (reduced s i (j + 1) i))
    (fun r s => (∀ i k, k ≠ j + 1 → s i k = a i k) ∧ (∀ i, r ≤ i → s i (j + 1) = a i (j + 1)) ∧
      ∀ i, 1 ≤ i → i < r →
        ∑ m ∈ Ico 1 i, a i m * s m (j + 1) + s i (j + 1) = a i (j + 1))
    (by omega) ⟨fun _ _ _ => rfl, fun _ _ => rfl, fun i hi hlt => by omega⟩ ?_
  rintro r s hr hrj ⟨hother, hbelow, habove⟩
  refine ⟨fun i k hk => ?_, fun i hi => ?_, fun i hi hir => ?_⟩
  · rw [put_of_ne_column hk, hother i k hk]
  · rw [put_of_ne_row (by omega), hbelow i (by omega)]
  · have hcolumn : ∀ m, m < i → put s r (j + 1) (reduced s r (j + 1) r) m (j + 1) = s m (j + 1) :=
      fun m hm => put_of_ne_row (by omega)
    rw [sum_congr rfl fun m hm => by rw [hcolumn m (mem_Ico.mp hm).2]]
    by_cases heq : i = r
    · subst heq
      rw [put_self, reduced_eq hi, hbelow i le_rfl]
      have hrow : ∑ m ∈ Ico 1 i, s i m * s m (j + 1) = ∑ m ∈ Ico 1 i, a i m * s m (j + 1) :=
        sum_congr rfl fun m hm => by
          rw [hother i m (by simp only [mem_Ico] at hm; omega)]
      rw [hrow]
      ring
    · rw [put_of_ne_row heq]
      exact habove i hi (by omega)

omit [Field K] in
/-- The rows `j` and `imax` change places. -/
theorem exchangeRows_spec (a : Block K) {k : Nat} (hk : 1 ≤ k) (hkn : k ≤ n) (i : Nat) :
    exchangeRows a n j imax i k = a (Equiv.swap j imax i) k := by
  have h := forUp_invariant (fun k a => put (put a imax k (a j k)) j k (a imax k))
    (fun r s => ∀ i k, s i k = if 1 ≤ k ∧ k < r then a (Equiv.swap j imax i) k else a i k)
    (show 1 ≤ n + 1 by omega) (s := a) (fun i k => by rw [if_neg (by omega)]) ?_
  · exact (h i k).trans (if_pos ⟨hk, by omega⟩)
  · intro r s hr hrn hs i k
    by_cases hkr : k = r
    · subst hkr
      rw [if_pos ⟨hr, by omega⟩]
      have hs' : ∀ i, s i k = a i k := fun i => by rw [hs, if_neg (by omega)]
      rw [Equiv.swap_apply_def]
      split_ifs with h h'
      · rw [h, put_self, hs']
      · rw [put_of_ne_row h, h', put_self, hs']
      · rw [put_of_ne_row h, put_of_ne_row h', hs']
    · rw [put_of_ne_column hkr, put_of_ne_column hkr, hs]
      have hiff : (1 ≤ k ∧ k < r + 1) ↔ (1 ≤ k ∧ k < r) := by omega
      simp only [hiff]

/-- The numbers below the pivot are divided by it. -/
theorem divideBelow_spec (a : Block K) (n j : Nat) (hj : j ≤ n) (i k : Nat) :
    divideBelow a n j i k =
      if k = j ∧ j < i ∧ i ≤ n then a i j * (1 / a j j) else a i k := by
  have h := forUp_invariant (fun i s => put s i j (s i j * (1 / a j j)))
    (fun r s => ∀ i k, s i k =
      if k = j ∧ j < i ∧ i < r then a i j * (1 / a j j) else a i k)
    (show j + 1 ≤ n + 1 by omega) (s := a) (fun i k => by rw [if_neg (by omega)]) ?_
  · rw [divideBelow, h i k]
    have hiff : (k = j ∧ j < i ∧ i < n + 1) ↔ (k = j ∧ j < i ∧ i ≤ n) := by omega
    simp only [hiff]
  · intro r s hr hrn hs i k
    by_cases hir : i = r
    · subst hir
      by_cases hkj : k = j
      · subst hkj
        rw [put_self, hs, if_neg (by omega), if_pos ⟨rfl, by omega, by omega⟩]
      · rw [put_of_ne_column hkj, hs, if_neg (by omega), if_neg (by omega)]
    · rw [put_of_ne_row hir, hs]
      have hiff : (k = j ∧ j < i ∧ i < r + 1) ↔ (k = j ∧ j < i ∧ i < r) := by omega
      simp only [hiff]

variable [LinearOrder K] [IsStrictOrderedRing K]

/-- What the loop over the rows from the diagonal on leaves: reduced numbers, and the row whose
scaled number is the greatest. -/
structure Searched (vv : Nat → K) (n j : Nat) (a a' : Block K) (imax : Nat) : Prop where
  other : ∀ i k, k ≠ j → a' i k = a i k
  above : ∀ i, i < j → a' i j = a i j
  sum : ∀ i, j ≤ i → i ≤ n → ∑ m ∈ Ico 1 j, a i m * a m j + a' i j = a i j
  le_imax : j ≤ imax
  imax_le : imax ≤ n
  greatest : ∀ i, j ≤ i → i ≤ n → vv i * |a' i j| ≤ vv imax * |a' imax j|

theorem reduceBelow_spec {vv : Nat → K} (a : Block K) (imax : Nat) (hj : 1 ≤ j) (hjn : j ≤ n)
    (hvv : ∀ i, 1 ≤ i → i ≤ n → 0 < vv i) :
    Searched vv n j a (reduceBelow vv n j a imax).1 (reduceBelow vv n j a imax).2.2 := by
  have h := forUp_invariant (fun i (s : Block K × K × Nat) =>
      let sum := reduced s.1 i j j
      let a := put s.1 i j sum
      let dum := vv i * |sum|
      if s.2.1 ≤ dum then (a, dum, i) else (a, s.2.1, s.2.2))
    (fun r s => (∀ i k, k ≠ j → s.1 i k = a i k) ∧ (∀ i, i < j ∨ r ≤ i → s.1 i j = a i j) ∧
      (∀ i, j ≤ i → i < r → ∑ m ∈ Ico 1 j, a i m * a m j + s.1 i j = a i j) ∧
      (r = j ∧ s.2.1 = 0 ∨
        j ≤ s.2.2 ∧ s.2.2 < r ∧ s.2.1 = vv s.2.2 * |s.1 s.2.2 j|) ∧
      ∀ i, j ≤ i → i < r → vv i * |s.1 i j| ≤ s.2.1)
    (show j ≤ n + 1 by omega) (s := (a, 0, imax))
    ⟨fun _ _ _ => rfl, fun _ _ => rfl, fun i hi hlt => by omega, .inl ⟨rfl, rfl⟩,
      fun i hi hlt => by omega⟩ ?_
  · obtain ⟨hother, habove, hsum, hmax, hgreatest⟩ := h
    rcases hmax with ⟨h, -⟩ | ⟨hle, hlt, hbig⟩
    · omega
    · exact ⟨hother, fun i hi => habove i (.inl hi), fun i hi hin => hsum i hi (by omega), hle,
        Nat.lt_succ_iff.mp hlt, fun i hi hin => hbig ▸ hgreatest i hi (by omega)⟩
  · rintro r ⟨s, big, im⟩ hr hrn ⟨hother, hsame, hsum, hmax, hgreatest⟩
    simp only at hother hsame hsum hmax hgreatest ⊢
    have hred : reduced s r j j = a r j - ∑ m ∈ Ico 1 j, a r m * a m j := by
      rw [reduced_eq hj, hsame r (.inr le_rfl)]
      congr 1
      refine sum_congr rfl fun m hm => ?_
      simp only [mem_Ico] at hm
      rw [hother r m (by omega), hsame m (.inl hm.2)]
    have hnew : (∀ i k, k ≠ j → put s r j (reduced s r j j) i k = a i k) ∧
        (∀ i, i < j ∨ r + 1 ≤ i → put s r j (reduced s r j j) i j = a i j) ∧
        (∀ i, j ≤ i → i < r + 1 →
          ∑ m ∈ Ico 1 j, a i m * a m j + put s r j (reduced s r j j) i j = a i j) := by
      refine ⟨fun i k hk => ?_, fun i hi => ?_, fun i hi hir => ?_⟩
      · rw [put_of_ne_column hk, hother i k hk]
      · rw [put_of_ne_row (by omega), hsame i (by omega)]
      · by_cases heq : i = r
        · subst heq
          rw [put_self, hred]
          ring
        · rw [put_of_ne_row heq]
          exact hsum i hi (by omega)
    have hpos : 0 ≤ vv r * |reduced s r j j| :=
      mul_nonneg (hvv r (by omega) (by omega)).le (abs_nonneg _)
    split_ifs with hbig
    · dsimp only
      refine ⟨hnew.1, hnew.2.1, hnew.2.2, .inr ⟨hr, by omega, by rw [put_self]⟩, ?_⟩
      intro i hi hir
      by_cases heq : i = r
      · rw [heq, put_self]
      · rw [put_of_ne_row heq]
        exact (hgreatest i hi (by omega)).trans hbig
    · rcases hmax with ⟨-, rfl⟩ | ⟨hle, hlt, heq⟩
      · exact absurd hpos hbig
      · dsimp only
        refine ⟨hnew.1, hnew.2.1, hnew.2.2, .inr ⟨hle, by omega, ?_⟩, ?_⟩
        · rw [put_of_ne_row (by omega)]
          exact heq
        · intro i hi hir
          by_cases heq : i = r
          · rw [heq, put_self]
            exact (not_le.mp hbig).le
          · rw [put_of_ne_row heq]
            exact hgreatest i hi (by omega)

end Column

/-! ### All columns -/

section Elimination

variable {K : Type} [Field K] {A : Block K} {n j : Nat}

/-- A column reduced by those in front of it, before its pivot is brought to the diagonal. -/
structure ReducedColumn (B a : Block K) (n j : Nat) : Prop where
  factors : ∀ k, 1 ≤ k → k < j → Factors n a B k
  above : ∀ i, 1 ≤ i → i < j → ∑ m ∈ Ico 1 i, a i m * a m j + a i j = B i j
  below : ∀ i, j ≤ i → i ≤ n → ∑ m ∈ Ico 1 j, a i m * a m j + a i j = B i j
  rest : ∀ k, j < k → k ≤ n → ∀ i, 1 ≤ i → i ≤ n → a i k = B i k

/-- Without a pivot the columns up to this one depend on each other. -/
theorem ReducedColumn.det_eq_zero {B a : Block K} (h : ReducedColumn B a n j) (hj : 1 ≤ j)
    (hjn : j ≤ n) (hzero : ∀ i, j ≤ i → i ≤ n → a i j = 0) : (toMatrix n B).det = 0 := by
  refine det_eq_zero_of_rank_lt (p := unitLower a) (q := upper a) hj hjn fun i k hi hin hk hkj => ?_
  by_cases hlt : k < j
  · rw [← h.factors k hk hlt i hi hin,
      ← sum_Ico_consecutive _ (show 1 ≤ k + 1 by omega) (show k + 1 ≤ j by omega)]
    have hrest : ∑ m ∈ Ico (k + 1) j, unitLower a i m * upper a m k = 0 :=
      sum_eq_zero fun m hm => by
        rw [upper, if_neg (by simp only [mem_Ico] at hm; omega), mul_zero]
    rw [hrest, add_zero]
    refine sum_congr rfl fun m hm => ?_
    rw [upper, if_pos (by simp only [mem_Ico] at hm; omega)]
  · obtain rfl : k = j := by omega
    have hupper : ∑ m ∈ Ico 1 k, unitLower a i m * upper a m k =
        ∑ m ∈ Ico 1 k, unitLower a i m * a m k := sum_congr rfl fun m hm => by
      rw [upper, if_pos (by simp only [mem_Ico] at hm; omega)]
    rw [hupper]
    by_cases hik : i < k
    · rw [sum_unitLower (x := fun m => a m k) hi hik, h.above i hi hik]
    · rw [sum_unitLower_of_le (x := fun m => a m k) (by omega), ← h.below i (by omega) hin,
        hzero i (by omega) hin, add_zero]

/-- The rows exchanged, and the numbers below the pivot divided by it. -/
theorem ReducedColumn.divide {B B' a a' : Block K} {imax : Nat} (h : ReducedColumn B a n j)
    (hj : 1 ≤ j) (himax : j ≤ imax ∧ imax ≤ n)
    (ha : ∀ i k, 1 ≤ k → k ≤ n → a' i k = a (Equiv.swap j imax i) k)
    (hB : ∀ i, B' i = B (Equiv.swap j imax i)) (hpivot : a' j j ≠ 0) :
    (∀ k, 1 ≤ k → k ≤ j → Factors n (divideBelow a' n j) B' k) ∧
      ∀ k, j < k → k ≤ n → ∀ i, 1 ≤ i → i ≤ n → divideBelow a' n j i k = B' i k := by
  have hjn : j ≤ n := himax.1.trans himax.2
  have hdivide := divideBelow_spec a' n j hjn
  have hcolumns : ∀ i k, k ≠ j → divideBelow a' n j i k = a' i k := fun i k hk => by
    rw [hdivide, if_neg fun h => hk h.1]
  have hrows : ∀ i, i ≤ j → divideBelow a' n j i j = a' i j := fun i hi => by
    rw [hdivide, if_neg (by omega)]
  have hswap : ∀ i, 1 ≤ i → i ≤ n →
      1 ≤ Equiv.swap j imax i ∧ Equiv.swap j imax i ≤ n := fun i hi hin =>
    (swap_range ⟨hj, hjn⟩ ⟨by omega, himax.2⟩).mpr ⟨hi, hin⟩
  have hfix : ∀ i, i < j → Equiv.swap j imax i = i := fun i hij =>
    Equiv.swap_apply_of_ne_of_ne (by omega) (by omega)
  refine ⟨fun k hk hkj => ?_, fun k hk hkn i hi hin => ?_⟩
  · by_cases hlt : k < j
    · exact (h.factors k hk hlt).swap ⟨hlt, hjn⟩ ⟨by omega, himax.2⟩
        (fun i m hi hin hm hmk => by rw [hcolumns i m (by omega), ha i m hm (by omega)])
        fun i _ _ => by rw [hB]
    · obtain rfl : k = j := by omega
      have hrow : ∀ i l, l ≤ k →
          ∑ m ∈ Ico 1 l, divideBelow a' n k i m * divideBelow a' n k m k =
            ∑ m ∈ Ico 1 l, a (Equiv.swap k imax i) m * a m k := fun i l hl =>
        sum_congr rfl fun m hm => by
          simp only [mem_Ico] at hm
          rw [hcolumns i m (by omega), hrows m (by omega), ha i m hm.1 (by omega),
            ha m k hk hjn, hfix m (by omega)]
      refine (factors_iff hk).mpr ⟨fun i hi hik hin => ?_, fun i hki hin => ?_⟩
      · rw [hrow i i (by omega), hrows i (by omega), ha i k hk hjn, hB, hfix i hik]
        exact h.above i hi hik
      · have hbelow : k ≤ Equiv.swap k imax i := by
          rw [Equiv.swap_apply_def]
          split_ifs <;> omega
        have hlast : unitLower (divideBelow a' n k) i k * divideBelow a' n k k k =
            a (Equiv.swap k imax i) k := by
          rw [hrows k le_rfl]
          by_cases heq : i = k
          · rw [heq, unitLower_self, one_mul, ha k k hk hjn]
          · rw [unitLower_of_lt (by omega), hdivide, if_pos ⟨rfl, by omega, hin⟩,
              one_div, inv_mul_cancel_right₀ hpivot, ha i k hk hjn]
        rw [hrow i k le_rfl, hlast, hB]
        exact h.below _ hbelow (hswap i (by omega) hin).2
  · rw [hcolumns i k (by omega), ha i k (by omega) hkn, hB]
    obtain ⟨h₁, h₂⟩ := hswap i hi hin
    exact h.rest k hk hkn _ h₁ h₂

variable [LinearOrder K] {s : Elimination K}

/-- The first `j` columns are done: they hold the triangles of the matrix with its rows
exchanged, and the other columns hold its numbers. -/
structure Reduced (A : Block K) (n j : Nat) (s : Elimination K) : Prop where
  factors : ∀ k, 1 ≤ k → k ≤ j → Factors n s.a (fun i => A (exchange s.indx j i)) k
  rest : ∀ k, j < k → k ≤ n → ∀ i, 1 ≤ i → i ≤ n → s.a i k = A (exchange s.indx j i) k
  pivots : ∀ k, 1 ≤ k → k ≤ j → s.a k k ≠ 0
  scales : ∀ i, 1 ≤ i → i ≤ n → 0 < s.vv i
  below : Below n s.indx j
  sign : s.d * s.d = 1
  det : (toMatrix n fun i => A (exchange s.indx j i)).det = s.d * (toMatrix n A).det

theorem Reduced.reduceColumn (h : Reduced A n j s) (hj : j + 1 ≤ n) {a : Block K} {imax : Nat}
    (hsearch : Searched s.vv n (j + 1) (reduceAbove s.a (j + 1)) a imax) :
    ReducedColumn (fun i => A (exchange s.indx j i)) a n (j + 1) := by
  obtain ⟨hother, hbelow, habove⟩ := reduceAbove_spec s.a (show 1 ≤ j + 1 by omega)
  have hcolumns : ∀ i k, k ≠ j + 1 → a i k = s.a i k := fun i k hk =>
    (hsearch.other i k hk).trans (hother i k hk)
  have hrest : ∀ i, 1 ≤ i → i ≤ n → s.a i (j + 1) = A (exchange s.indx j i) (j + 1) :=
    h.rest (j + 1) (by omega) hj
  have hrow : ∀ i l, l ≤ j + 1 → ∑ m ∈ Ico 1 l, a i m * a m (j + 1) =
      ∑ m ∈ Ico 1 l, s.a i m * reduceAbove s.a (j + 1) m (j + 1) := fun i l hl =>
    sum_congr rfl fun m hm => by
      simp only [mem_Ico] at hm
      rw [hcolumns i m (by omega), hsearch.above m (by omega)]
  refine ⟨fun k hk hkj => ?_, fun i hi hij => ?_, fun i hji hin => ?_, fun k hk hkn i hi hin => ?_⟩
  · exact (h.factors k hk (by omega)).congr (by omega)
      (fun i m _ _ _ hm => hcolumns i m (by omega)) fun _ _ _ => rfl
  · rw [hrow i i (by omega), hsearch.above i hij, habove i hi hij, hrest i hi (by omega)]
  · have hsum := hsearch.sum i hji hin
    rw [hbelow i hji, hrest i (by omega) hin] at hsum
    rw [← hsum, hrow i (j + 1) le_rfl]
    congr 1
    refine sum_congr rfl fun m hm => ?_
    rw [hother i m (by simp only [mem_Ico] at hm; omega)]
  · rw [hcolumns i k (by omega)]
    exact h.rest k (by omega) hkn i hi hin

/-- The rows as `column` exchanges them. -/
theorem Reduced.rows_exchanged {imax : Nat} (h : Reduced A n j s) (a : Block K) (hj : j + 1 ≤ n)
    (himax : j + 1 ≤ imax ∧ imax ≤ n) :
    ∃ a' d vv, (if j + 1 ≠ imax then
        (exchangeRows a n (j + 1) imax, -s.d, Function.update s.vv imax (s.vv (j + 1)))
      else (a, s.d, s.vv)) = (a', d, vv) ∧
      (∀ i k, 1 ≤ k → k ≤ n → a' i k = a (Equiv.swap (j + 1) imax i) k) ∧
      (∀ i, 1 ≤ i → i ≤ n → 0 < vv i) ∧ d * d = 1 ∧
      (toMatrix n fun i => A (exchange s.indx j (Equiv.swap (j + 1) imax i))).det =
        d * (toMatrix n A).det := by
  by_cases heq : j + 1 = imax
  · refine ⟨a, s.d, s.vv, if_neg (not_not.mpr heq), fun i k _ _ => ?_, h.scales, h.sign, ?_⟩
    · rw [← heq, Equiv.swap_self, Equiv.refl_apply]
    · rw [← heq, Equiv.swap_self]
      exact h.det
  · refine ⟨_, _, _, if_pos heq, fun i k hk hkn => exchangeRows_spec a hk hkn i,
      fun i hi hin => ?_, ?_, ?_⟩
    · by_cases hi' : i = imax
      · rw [hi', Function.update_self]
        exact h.scales _ (by omega) hj
      · rw [Function.update_of_ne hi']
        exact h.scales i hi hin
    · rw [neg_mul_neg, h.sign]
    · have hdet := det_swap (b := fun i => A (exchange s.indx j i))
        (show 1 ≤ j + 1 ∧ j + 1 ≤ n by omega) (show 1 ≤ imax ∧ imax ≤ n by omega) heq
      rw [hdet, h.det, neg_mul]

variable [IsStrictOrderedRing K]

/-- One column: it is done, or the matrix is singular. -/
theorem Reduced.next (h : Reduced A n j s) (hj : j + 1 ≤ n) :
    (∃ s', column n 0 s (j + 1) = some s' ∧ Reduced A n (j + 1) s') ∨
      (column n 0 s (j + 1) = none ∧ (toMatrix n A).det = 0) := by
  have hsearch := reduceBelow_spec (reduceAbove s.a (j + 1)) s.imax (show 1 ≤ j + 1 by omega) hj
    h.scales
  unfold column
  generalize reduceBelow s.vv n (j + 1) (reduceAbove s.a (j + 1)) s.imax = r at hsearch
  obtain ⟨a, big, imax⟩ := r
  dsimp only at hsearch
  have himax : j + 1 ≤ imax ∧ imax ≤ n := ⟨hsearch.le_imax, hsearch.imax_le⟩
  have hcolumn := h.reduceColumn hj hsearch
  obtain ⟨a', d, vv, hif, ha', hvv, hd, hdet⟩ := h.rows_exchanged a hj himax
  simp only [hif]
  by_cases hpivot : a' (j + 1) (j + 1) = 0
  · refine .inr ⟨by simp [hpivot], ?_⟩
    have hzero : ∀ i, j + 1 ≤ i → i ≤ n → a i (j + 1) = 0 := by
      intro i hi hin
      have hmax : a imax (j + 1) = 0 := by
        rw [ha' _ _ (by omega) hj, Equiv.swap_apply_left] at hpivot
        exact hpivot
      have hle := hsearch.greatest i hi hin
      rw [hmax, abs_zero, mul_zero] at hle
      have hpos := h.scales i (by omega) hin
      exact abs_nonpos_iff.mp (nonpos_of_mul_nonpos_right hle hpos)
    have hsingular := hcolumn.det_eq_zero (by omega) hj hzero
    rw [h.det] at hsingular
    rcases mul_eq_zero.mp hsingular with hs | hs
    · have hsign := h.sign
      rw [hs, mul_zero] at hsign
      exact absurd hsign zero_ne_one
    · exact hs
  · refine .inl ⟨_, by rw [if_neg fun h => hpivot h.1], ?_⟩
    have hindx : ∀ i, exchange (Function.update s.indx (j + 1) imax) (j + 1) i =
        exchange s.indx j (Equiv.swap (j + 1) imax i) := by
      intro i
      have hbefore : exchange (Function.update s.indx (j + 1) imax) j = exchange s.indx j :=
        exchange_congr fun k _ hk => Function.update_of_ne (by omega) _ _
      rw [exchange_succ, Function.update_self, hbefore]
    have hdivide : (if j + 1 ≠ n then divideBelow a' n (j + 1) else a') =
        divideBelow a' n (j + 1) := by
      split_ifs with hn
      · rfl
      · funext i k
        rw [divideBelow_spec a' n (j + 1) hj, if_neg (by omega)]
    have hB : ∀ i, A (exchange (Function.update s.indx (j + 1) imax) (j + 1) i) =
        A (exchange s.indx j (Equiv.swap (j + 1) imax i)) := fun i => by rw [hindx]
    obtain ⟨hfactors, hrest⟩ := hcolumn.divide (by omega) himax ha' hB hpivot
    simp only [if_neg hpivot, hdivide]
    refine ⟨hfactors, hrest, fun k hk hkj => ?_, hvv, fun k hk hkj => ?_, hd, ?_⟩
    · dsimp only
      rw [divideBelow_spec a' n (j + 1) hj, if_neg (by omega)]
      by_cases heq : k = j + 1
      · rw [heq]
        exact hpivot
      · rw [ha' k k hk (by omega), Equiv.swap_apply_of_ne_of_ne (by omega) (by omega),
          hsearch.other k k (by omega), (reduceAbove_spec s.a (by omega)).1 k k (by omega)]
        exact h.pivots k hk (by omega)
    · dsimp only
      by_cases heq : k = j + 1
      · rw [heq, Function.update_self]
        exact himax
      · rw [Function.update_of_ne heq]
        exact h.below k hk (by omega)
    · simp only [hindx]
      exact hdet

/-- The decomposition of a matrix, with exact numbers and no number for a missing pivot. -/
theorem ludcmp_spec (A : Block K) (n : Nat) :
    (∃ s, ludcmp A n 0 = some s ∧ Reduced A n n s) ∨
      (ludcmp A n 0 = none ∧ (toMatrix n A).det = 0) := by
  unfold ludcmp
  rcases rowScales_spec A n with ⟨vv, hvv, hpos⟩ | ⟨hnone, i, hi, hin, hzero⟩
  · simp only [hvv, Option.bind_eq_bind, Option.bind_some]
    have hstart : Reduced A n 0 ⟨A, vv, fun _ => 0, 1, 0⟩ :=
      ⟨fun k hk hk0 => by omega, fun _ _ _ _ _ _ => rfl, fun k hk hk0 => by omega, hpos,
        fun k hk hk0 => by omega, one_mul 1, (one_mul _).symm⟩
    have h := foldlM_invariant (column n (0 : K))
      (fun i s => Reduced A n (i - 1) s) ?_ (show 1 ≤ n + 1 by omega) hstart
    · rcases h with ⟨s, hs, hred⟩ | ⟨hnone, i, s, hi, hin, hred, hround⟩
      · exact .inl ⟨s, hs, hred⟩
      · refine .inr ⟨hnone, ?_⟩
        obtain ⟨i, rfl⟩ := Nat.exists_eq_add_of_le' hi
        rw [Nat.add_sub_cancel] at hred
        rcases hred.next hin with ⟨s', hs', -⟩ | ⟨-, hdet⟩
        · rw [hs'] at hround
          cases hround
        · exact hdet
    · intro i s s' hi hin hred hround
      obtain ⟨i, rfl⟩ := Nat.exists_eq_add_of_le' hi
      rw [Nat.add_sub_cancel] at hred ⊢
      rcases hred.next hin with ⟨s'', hs'', hred'⟩ | ⟨hnone, -⟩
      · rw [hround] at hs''
        exact Option.some.inj hs'' ▸ hred'
      · rw [hround] at hnone
        cases hnone
  · refine .inr ⟨by simp [hnone], ?_⟩
    refine Matrix.det_eq_zero_of_row_eq_zero ⟨i - 1, by omega⟩ fun k => ?_
    rw [toMatrix_apply, show i - 1 + 1 = i by omega]
    exact hzero _ (by omega) (by omega)

end Elimination

end Matrices

end NewLispNeo
