/-
Matrices whose indices count from one on: the product of a unit lower and an upper triangle
that share one matrix, the solution of systems with them, and the exchange of rows.
-/
import Mathlib.LinearAlgebra.FiniteDimensional.Lemmas
import Mathlib.LinearAlgebra.Matrix.Block
import Mathlib.LinearAlgebra.Matrix.ToLin
import Mathlib.LinearAlgebra.Matrix.ToLinearEquiv

namespace TriangularFactors

open Finset Matrix

variable {K : Type*}

/-- The first `n` rows and columns. -/
def toMatrix (n : ℕ) (a : ℕ → ℕ → K) : Matrix (Fin n) (Fin n) K :=
  .of fun i k => a (i + 1) (k + 1)

@[simp] theorem toMatrix_apply (n : ℕ) (a : ℕ → ℕ → K) (i k : Fin n) :
    toMatrix n a i k = a (i + 1) (k + 1) := rfl

theorem sum_Ico_one [AddCommMonoid K] (n : ℕ) (f : ℕ → K) :
    ∑ k ∈ Ico 1 (n + 1), f k = ∑ k : Fin n, f (k + 1) := by
  rw [sum_Ico_eq_sum_range, Nat.add_sub_cancel, Fin.sum_univ_eq_sum_range (fun k => f (k + 1))]
  exact sum_congr rfl fun k _ => by rw [Nat.add_comm]

theorem prod_Ico_one [CommMonoid K] (n : ℕ) (f : ℕ → K) :
    ∏ k ∈ Ico 1 (n + 1), f k = ∏ k : Fin n, f (k + 1) := by
  rw [prod_Ico_eq_prod_range, Nat.add_sub_cancel, Fin.prod_univ_eq_prod_range (fun k => f (k + 1))]
  exact prod_congr rfl fun k _ => by rw [Nat.add_comm]

/-! ### The two triangles -/

section Factors

variable [CommRing K] {a b : ℕ → ℕ → K} {n : ℕ}

/-- The part below the diagonal, with ones on it. -/
def unitLower (a : ℕ → ℕ → K) (i k : ℕ) : K := if k < i then a i k else if k = i then 1 else 0

/-- The diagonal and the part above it. -/
def upper (a : ℕ → ℕ → K) (i k : ℕ) : K := if i ≤ k then a i k else 0

theorem unitLower_of_lt {i k : ℕ} (h : k < i) : unitLower a i k = a i k := if_pos h

@[simp] theorem unitLower_self (i : ℕ) : unitLower a i i = 1 := by simp [unitLower]

theorem unitLower_of_gt {i k : ℕ} (h : i < k) : unitLower a i k = 0 := by
  rw [unitLower, if_neg (by omega), if_neg (by omega)]

/-- The column `k` of `b` is that of the product of the two triangles in `a`. -/
def Factors (n : ℕ) (a b : ℕ → ℕ → K) (k : ℕ) : Prop :=
  ∀ i, 1 ≤ i → i ≤ n → ∑ m ∈ Ico 1 (k + 1), unitLower a i m * a m k = b i k

/-- A row of the lower triangle ends with the one on the diagonal. -/
theorem sum_unitLower {x : ℕ → K} {i j : ℕ} (hi : 1 ≤ i) (hj : i < j) :
    ∑ m ∈ Ico 1 j, unitLower a i m * x m = ∑ m ∈ Ico 1 i, a i m * x m + x i := by
  rw [← sum_Ico_consecutive _ (show 1 ≤ i + 1 by omega) (show i + 1 ≤ j by omega),
    sum_Ico_succ_top hi, unitLower_self, one_mul]
  have hrest : ∑ m ∈ Ico (i + 1) j, unitLower a i m * x m = 0 :=
    sum_eq_zero fun m hm => by
      rw [unitLower_of_gt (by simp only [mem_Ico] at hm; omega), zero_mul]
  rw [hrest, add_zero]
  congr 1
  refine sum_congr rfl fun m hm => ?_
  rw [unitLower_of_lt (mem_Ico.mp hm).2]

/-- Up to the diagonal it is the row of the matrix. -/
theorem sum_unitLower_of_le {x : ℕ → K} {i j : ℕ} (hj : j ≤ i) :
    ∑ m ∈ Ico 1 j, unitLower a i m * x m = ∑ m ∈ Ico 1 j, a i m * x m := by
  refine sum_congr rfl fun m hm => ?_
  have hlt := (mem_Ico.mp hm).2
  rw [unitLower_of_lt (by omega)]

theorem factors_iff {k : ℕ} (hk : 1 ≤ k) :
    Factors n a b k ↔
      (∀ i, 1 ≤ i → i < k → i ≤ n → ∑ m ∈ Ico 1 i, a i m * a m k + a i k = b i k) ∧
      (∀ i, k ≤ i → i ≤ n →
        ∑ m ∈ Ico 1 k, a i m * a m k + unitLower a i k * a k k = b i k) := by
  have hupper : ∀ i, 1 ≤ i → i < k → ∑ m ∈ Ico 1 (k + 1), unitLower a i m * a m k =
      ∑ m ∈ Ico 1 i, a i m * a m k + a i k := fun i hi hik =>
    sum_unitLower (x := fun m => a m k) hi (by omega)
  have hlower : ∀ i, k ≤ i → ∑ m ∈ Ico 1 (k + 1), unitLower a i m * a m k =
      ∑ m ∈ Ico 1 k, a i m * a m k + unitLower a i k * a k k := fun i hik => by
    rw [sum_Ico_succ_top hk, sum_unitLower_of_le (x := fun m => a m k) hik]
  constructor
  · intro h
    exact ⟨fun i hi hik hin => hupper i hi hik ▸ h i hi hin,
      fun i hik hin => hlower i hik ▸ h i (by omega) hin⟩
  · intro h i hi hin
    by_cases hik : i < k
    · rw [hupper i hi hik]
      exact h.1 i hi hik hin
    · rw [hlower i (by omega)]
      exact h.2 i (by omega) hin

theorem Factors.congr {a' b' : ℕ → ℕ → K} {k : ℕ} (h : Factors n a b k) (hk : k ≤ n)
    (ha : ∀ i m, 1 ≤ i → i ≤ n → 1 ≤ m → m ≤ k → a' i m = a i m)
    (hb : ∀ i, 1 ≤ i → i ≤ n → b' i k = b i k) : Factors n a' b' k := by
  intro i hi hin
  rw [hb i hi hin, ← h i hi hin]
  refine sum_congr rfl fun m hm => ?_
  simp only [mem_Ico] at hm
  rw [ha m k hm.1 (by omega) (by omega) le_rfl]
  simp only [unitLower]
  rw [ha i m hi hin hm.1 (by omega)]

/-- Two rows below `k` change places in all of it. -/
theorem Factors.swap {a' b' : ℕ → ℕ → K} {k p q : ℕ} (h : Factors n a b k)
    (hp : k < p ∧ p ≤ n) (hq : k < q ∧ q ≤ n)
    (ha : ∀ i m, 1 ≤ i → i ≤ n → 1 ≤ m → m ≤ k → a' i m = a (Equiv.swap p q i) m)
    (hb : ∀ i, 1 ≤ i → i ≤ n → b' i k = b (Equiv.swap p q i) k) : Factors n a' b' k := by
  have hfix : ∀ i, i ≤ k → Equiv.swap p q i = i := fun i hik =>
    Equiv.swap_apply_of_ne_of_ne (by omega) (by omega)
  have hbelow : ∀ i, k < i → i ≤ n → k < Equiv.swap p q i ∧ Equiv.swap p q i ≤ n := by
    intro i hik hin
    rw [Equiv.swap_apply_def]
    split_ifs <;> omega
  intro i hi hin
  by_cases hik : i ≤ k
  · rw [hb i hi hin, hfix i hik, ← h i hi hin]
    refine sum_congr rfl fun m hm => ?_
    simp only [mem_Ico] at hm
    rw [ha m k hm.1 (by omega) (by omega) le_rfl, hfix m (by omega)]
    simp only [unitLower]
    rw [ha i m hi hin hm.1 (by omega), hfix i hik]
  · obtain ⟨hlt, hle⟩ := hbelow i (by omega) hin
    rw [hb i hi hin, ← h _ (by omega) hle]
    refine sum_congr rfl fun m hm => ?_
    simp only [mem_Ico] at hm
    rw [ha m k hm.1 (by omega) (by omega) le_rfl, hfix m (by omega),
      unitLower_of_lt (by omega), unitLower_of_lt (by omega), ha i m hi hin hm.1 (by omega)]

/-- The whole of the product. -/
theorem toMatrix_eq_mul (h : ∀ k, 1 ≤ k → k ≤ n → Factors n a b k) :
    toMatrix n b = toMatrix n (unitLower a) * toMatrix n (upper a) := by
  ext i k
  have hsum : ∑ m ∈ Ico 1 (n + 1), unitLower a (i + 1) m * upper a m (k + 1) =
      b (i + 1) (k + 1) := by
    rw [← h (k + 1) (by omega) (by omega) (i + 1) (by omega) (by omega),
      ← sum_Ico_consecutive _ (show 1 ≤ (k : ℕ) + 1 + 1 by omega)
        (show (k : ℕ) + 1 + 1 ≤ n + 1 by omega)]
    have hrest : ∑ m ∈ Ico ((k : ℕ) + 1 + 1) (n + 1),
        unitLower a (i + 1) m * upper a m (k + 1) = 0 := sum_eq_zero fun m hm => by
      rw [upper, if_neg (by simp only [mem_Ico] at hm; omega), mul_zero]
    rw [hrest, add_zero]
    refine sum_congr rfl fun m hm => ?_
    rw [upper, if_pos (by simp only [mem_Ico] at hm; omega)]
  rw [toMatrix_apply, ← hsum, sum_Ico_one, mul_apply]
  rfl

/-- Its determinant is the product along the diagonal. -/
theorem det_of_factors (h : ∀ k, 1 ≤ k → k ≤ n → Factors n a b k) :
    (toMatrix n b).det = ∏ k ∈ Ico 1 (n + 1), a k k := by
  have hlower : (toMatrix n (unitLower a)).det = 1 := by
    rw [det_of_isLowerTriangular _ fun i k hik => ?_]
    · simp
    · exact unitLower_of_gt (by simpa using hik)
  have hupper : (toMatrix n (upper a)).det = ∏ k ∈ Ico 1 (n + 1), a k k := by
    rw [det_of_isUpperTriangular fun i k hik => ?_, prod_Ico_one n fun k => a k k]
    · simp [upper]
    · exact if_neg (by simpa using hik)
  rw [toMatrix_eq_mul h, det_mul, hlower, hupper, one_mul]

end Factors

/-! ### Systems of equations -/

section Systems

variable [Field K] {a b : ℕ → ℕ → K} {n : ℕ} {x y c : ℕ → K}

/-- What forward and back substitution compute is a solution. -/
theorem solution (h : ∀ k, 1 ≤ k → k ≤ n → Factors n a b k)
    (hdiag : ∀ k, 1 ≤ k → k ≤ n → a k k ≠ 0)
    (hy : ∀ i, 1 ≤ i → i ≤ n → y i = c i - ∑ k ∈ Ico 1 i, a i k * y k)
    (hx : ∀ i, 1 ≤ i → i ≤ n → x i = (y i - ∑ k ∈ Ico (i + 1) (n + 1), a i k * x k) / a i i) :
    ∀ i, 1 ≤ i → i ≤ n → ∑ k ∈ Ico 1 (n + 1), b i k * x k = c i := by
  intro i hi hin
  have hlower : ∑ m ∈ Ico 1 (n + 1), unitLower a i m * y m = c i := by
    rw [sum_unitLower hi (by omega), hy i hi hin]
    ring
  have hupper : ∀ m, 1 ≤ m → m ≤ n → ∑ k ∈ Ico m (n + 1), a m k * x k = y m := by
    intro m hm hmn
    rw [sum_eq_sum_Ico_succ_bot (by omega), hx m hm hmn, mul_div_cancel₀ _ (hdiag m hm hmn)]
    ring
  calc ∑ k ∈ Ico 1 (n + 1), b i k * x k
      = ∑ k ∈ Ico 1 (n + 1), ∑ m ∈ Ico 1 (k + 1), unitLower a i m * (a m k * x k) := by
        refine sum_congr rfl fun k hk => ?_
        simp only [mem_Ico] at hk
        rw [← h k hk.1 (by omega) i hi hin, sum_mul]
        exact sum_congr rfl fun m _ => mul_assoc _ _ _
    _ = ∑ m ∈ Ico 1 (n + 1), ∑ k ∈ Ico m (n + 1), unitLower a i m * (a m k * x k) := by
        refine sum_comm' fun k m => ?_
        simp only [mem_Ico]
        omega
    _ = ∑ m ∈ Ico 1 (n + 1), unitLower a i m * y m := by
        refine sum_congr rfl fun m hm => ?_
        simp only [mem_Ico] at hm
        rw [← mul_sum, hupper m hm.1 (by omega)]
    _ = c i := hlower

/-- Fewer equations than unknowns. -/
theorem exists_kernel (q : ℕ → ℕ → K) {j : ℕ} (hj : 1 ≤ j) :
    ∃ w : ℕ → K, (∃ k, 1 ≤ k ∧ k ≤ j ∧ w k ≠ 0) ∧ (∀ k, j < k → w k = 0) ∧
      ∀ m, 1 ≤ m → m < j → ∑ k ∈ Ico 1 (j + 1), q m k * w k = 0 := by
  let M : Matrix (Fin (j - 1)) (Fin j) K := .of fun m k => q (m + 1) (k + 1)
  have hker : LinearMap.ker M.mulVecLin ≠ ⊥ :=
    LinearMap.ker_ne_bot_of_finrank_lt (by simp; omega)
  obtain ⟨v, hv, hne⟩ := Submodule.exists_mem_ne_zero_of_ne_bot hker
  obtain ⟨k, hk⟩ := Function.ne_iff.mp hne
  let w : ℕ → K := fun i => if h : 1 ≤ i ∧ i ≤ j then v ⟨i - 1, by omega⟩ else 0
  have hw : ∀ i : Fin j, w (i + 1) = v i := fun i => dif_pos ⟨by omega, by omega⟩
  refine ⟨w, ⟨k + 1, by omega, by omega, by rw [hw]; exact hk⟩,
    fun i hi => dif_neg (by omega), fun m hm hmj => ?_⟩
  have hrow := congrFun (LinearMap.mem_ker.mp hv) ⟨m - 1, by omega⟩
  rw [sum_Ico_one j fun k => q m k * w k]
  simp only [hw]
  have hm' : m - 1 + 1 = m := by omega
  simpa [M, mulVec, dotProduct, hm'] using hrow

/-- Columns that depend on fewer vectors than there are. -/
theorem det_eq_zero_of_rank_lt {p q : ℕ → ℕ → K} {j : ℕ} (hj : 1 ≤ j) (hjn : j ≤ n)
    (h : ∀ i k, 1 ≤ i → i ≤ n → 1 ≤ k → k ≤ j →
      b i k = ∑ m ∈ Ico 1 j, p i m * q m k) : (toMatrix n b).det = 0 := by
  obtain ⟨w, ⟨k, hk, hkj, hne⟩, hzero, hker⟩ := exists_kernel q hj
  refine exists_mulVec_eq_zero_iff.mp ⟨fun i => w (i + 1), ?_, ?_⟩
  · intro hall
    refine hne ?_
    have h := congrFun hall ⟨k - 1, by omega⟩
    rwa [Pi.zero_apply, show k - 1 + 1 = k by omega] at h
  · funext i
    have hsum : ∑ k ∈ Ico 1 (n + 1), b (i + 1) k * w k = 0 := by
      rw [← sum_Ico_consecutive _ (show 1 ≤ j + 1 by omega) (show j + 1 ≤ n + 1 by omega)]
      have hrest : ∑ k ∈ Ico (j + 1) (n + 1), b (i + 1) k * w k = 0 := sum_eq_zero fun k hk => by
        rw [hzero k (by simp only [mem_Ico] at hk; omega), mul_zero]
      rw [hrest, add_zero]
      calc ∑ k ∈ Ico 1 (j + 1), b (i + 1) k * w k
          = ∑ k ∈ Ico 1 (j + 1), ∑ m ∈ Ico 1 j, p (i + 1) m * (q m k * w k) := by
            refine sum_congr rfl fun k hk => ?_
            simp only [mem_Ico] at hk
            rw [h (i + 1) k (by omega) (by omega) hk.1 (by omega), sum_mul]
            exact sum_congr rfl fun m _ => mul_assoc _ _ _
        _ = ∑ m ∈ Ico 1 j, p (i + 1) m * ∑ k ∈ Ico 1 (j + 1), q m k * w k := by
            rw [sum_comm]
            exact sum_congr rfl fun m _ => (mul_sum _ _ _).symm
        _ = 0 := sum_eq_zero fun m hm => by
            simp only [mem_Ico] at hm
            rw [hker m hm.1 hm.2, mul_zero]
    rw [sum_Ico_one n fun k => b (i + 1) k * w k] at hsum
    exact hsum

end Systems

/-! ### Row exchanges -/

section Exchanges

variable {indx indx' : ℕ → ℕ} {n i j : ℕ}

/-- The first `j` exchanges, each of the row of its number with a row at or below it. -/
def exchange (indx : ℕ → ℕ) : ℕ → Equiv.Perm ℕ
  | 0 => 1
  | j + 1 => exchange indx j * Equiv.swap (j + 1) (indx (j + 1))

@[simp] theorem exchange_zero (indx : ℕ → ℕ) (i : ℕ) : exchange indx 0 i = i := rfl

theorem exchange_succ (indx : ℕ → ℕ) (j i : ℕ) :
    exchange indx (j + 1) i = exchange indx j (Equiv.swap (j + 1) (indx (j + 1)) i) := rfl

theorem exchange_congr (h : ∀ k, 1 ≤ k → k ≤ j → indx k = indx' k) :
    exchange indx j = exchange indx' j := by
  induction j with
  | zero => rfl
  | succ j ih =>
      rw [exchange, exchange, ih fun k hk hkj => h k hk (by omega), h (j + 1) (by omega) le_rfl]

/-- Rows are exchanged with rows below them, down to the last one. -/
def Below (n : ℕ) (indx : ℕ → ℕ) (j : ℕ) : Prop := ∀ k, 1 ≤ k → k ≤ j → k ≤ indx k ∧ indx k ≤ n

theorem swap_range {p q : ℕ} (hp : 1 ≤ p ∧ p ≤ n) (hq : 1 ≤ q ∧ q ≤ n) :
    (1 ≤ Equiv.swap p q i ∧ Equiv.swap p q i ≤ n) ↔ (1 ≤ i ∧ i ≤ n) := by
  rw [Equiv.swap_apply_def]
  split_ifs with h h'
  · subst h
    exact iff_of_true hq hp
  · subst h'
    exact iff_of_true hp hq
  · rfl

theorem exchange_range (h : Below n indx j) (hj : j ≤ n) :
    (1 ≤ exchange indx j i ∧ exchange indx j i ≤ n) ↔ (1 ≤ i ∧ i ≤ n) := by
  induction j generalizing i with
  | zero => rfl
  | succ j ih =>
      obtain ⟨hle, hn⟩ := h (j + 1) (by omega) le_rfl
      rw [exchange_succ, ih (fun k hk hkj => h k hk (by omega)) (by omega),
        swap_range ⟨by omega, hj⟩ ⟨by omega, hn⟩]

/-- A row above the exchanges stays where it is. -/
theorem exchange_of_le (h : Below n indx j) (hij : i ≤ j) :
    exchange indx j i = exchange indx i i := by
  induction j with
  | zero =>
      obtain rfl : i = 0 := by omega
      rfl
  | succ j ih =>
      by_cases heq : i = j + 1
      · rw [heq]
      · obtain ⟨hle, -⟩ := h (j + 1) (by omega) le_rfl
        rw [exchange_succ, Equiv.swap_apply_of_ne_of_ne (by omega) (by omega),
          ih (fun k hk hkj => h k hk (by omega)) (by omega)]

variable [CommRing K] {b : ℕ → ℕ → K}

/-- The exchange of two rows changes the sign of the determinant. -/
theorem det_swap {p q : ℕ} (hp : 1 ≤ p ∧ p ≤ n) (hq : 1 ≤ q ∧ q ≤ n) (hne : p ≠ q) :
    (toMatrix n fun i => b (Equiv.swap p q i)).det = -(toMatrix n b).det := by
  have hsub : (toMatrix n fun i => b (Equiv.swap p q i)) =
      (toMatrix n b).submatrix (Equiv.swap ⟨p - 1, by omega⟩ ⟨q - 1, by omega⟩) id := by
    ext i k
    simp only [toMatrix_apply, submatrix_apply, id_eq, Equiv.swap_apply_def, Fin.ext_iff]
    congr 1
    split_ifs <;> first | omega | (simp only; omega)
  rw [hsub, det_permute, Equiv.Perm.sign_swap fun h => hne (by
    rw [Fin.mk.injEq] at h
    omega)]
  simp

end Exchanges

end TriangularFactors
