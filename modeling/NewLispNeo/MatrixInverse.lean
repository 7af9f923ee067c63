/-
What the matrix primitives compute with exact numbers: solutions of systems, the inverse, the
determinant and the product.
-/
import NewLispNeo.Crout

namespace NewLispNeo

namespace Matrices

open Finset TriangularFactors

section Substitution

variable {K : Type} [Field K] [LinearOrder K] {a : Block K} {n : Nat} {indx : Nat → Nat}
  {b : Nat → K}

/-- The first loop: the right side with its numbers exchanged like the rows, and each reduced by
those before it. -/
theorem forward_spec (hbelow : Below n indx n) :
    ∀ i, 1 ≤ i → i ≤ n → (forUp 1 n (forwardStep a indx) (b, 0)).1 i =
      b (exchange indx n i) -
        ∑ k ∈ Ico 1 i, a i k * (forUp 1 n (forwardStep a indx) (b, 0)).1 k := by
  have h := forUp_invariant (forwardStep a indx)
    (fun r s => (∀ i, r ≤ i → i ≤ n → s.1 i = b (exchange indx (r - 1) i)) ∧
      (∀ i, 1 ≤ i → i < r → s.1 i = b (exchange indx i i) - ∑ k ∈ Ico 1 i, a i k * s.1 k) ∧
      (∀ i, 1 ≤ i → i < r → (s.2 = 0 ∨ i < s.2) → s.1 i = 0) ∧ s.2 < r)
    (show 1 ≤ n + 1 by omega) (s := (b, 0))
    ⟨fun _ _ _ => rfl, fun i hi hlt => by omega, fun i hi hlt => by omega, by omega⟩ ?_
  · intro i hi hin
    rw [exchange_of_le hbelow hin]
    exact h.2.1 i hi (by omega)
  · rintro r ⟨s, ii⟩ hr hrn ⟨hrest, hdone, hzero, hii⟩
    dsimp only at hrest hdone hzero hii
    obtain ⟨r, rfl⟩ := Nat.exists_eq_add_of_le' hr
    obtain ⟨hle, hn⟩ := hbelow (r + 1) hr hrn
    rw [Nat.add_sub_cancel] at hrest
    -- the right side after the exchange
    have hsum : s (indx (r + 1)) = b (exchange indx (r + 1) (r + 1)) := by
      rw [exchange_succ, Equiv.swap_apply_left, hrest _ hle hn]
    have hrest' : ∀ i, r + 1 < i → i ≤ n →
        Function.update s (indx (r + 1)) (s (r + 1)) i = b (exchange indx (r + 1) i) := by
      intro i hi hin
      rw [exchange_succ]
      by_cases heq : i = indx (r + 1)
      · rw [heq, Function.update_self, Equiv.swap_apply_right, hrest _ le_rfl hrn]
      · rw [Function.update_of_ne heq, Equiv.swap_apply_of_ne_of_ne (by omega) heq,
          hrest _ (by omega) hin]
    have hbefore : ∀ i, i < r + 1 → Function.update s (indx (r + 1)) (s (r + 1)) i = s i :=
      fun i hi => Function.update_of_ne (by omega) _ _
    -- what is left out of the sum is zero
    obtain ⟨x, ii', hstep, hx, hii', hskip⟩ : ∃ x ii', forwardStep a indx (r + 1) (s, ii) =
        (Function.update (Function.update s (indx (r + 1)) (s (r + 1))) (r + 1) x, ii') ∧
        x = b (exchange indx (r + 1) (r + 1)) - ∑ k ∈ Ico 1 (r + 1), a (r + 1) k * s k ∧
        ii' < r + 2 ∧ ((ii' = 0 ∨ r + 1 < ii') → x = 0) ∧
        (∀ i, (ii' = 0 ∨ i < ii') → i < r + 1 → (ii = 0 ∨ i < ii)) := by
      by_cases hfirst : ii = 0
      · have hall : ∑ k ∈ Ico 1 (r + 1), a (r + 1) k * s k = 0 := sum_eq_zero fun k hk => by
          simp only [mem_Ico] at hk
          rw [hzero k hk.1 hk.2 (.inl hfirst), mul_zero]
        refine ⟨s (indx (r + 1)), if s (indx (r + 1)) ≠ 0 then r + 1 else ii, ?_, ?_, ?_, ?_, ?_⟩
        · simp [forwardStep, hfirst]
        · rw [hall, hsum, sub_zero]
        · split_ifs <;> omega
        · intro h
          by_contra hne
          rw [if_pos hne] at h
          omega
        · exact fun _ _ _ => .inl hfirst
      · refine ⟨forUp ii r (fun j sum => sum - a (r + 1) j *
          Function.update s (indx (r + 1)) (s (r + 1)) j) (s (indx (r + 1))), ii, ?_, ?_,
          by omega, by omega, fun i hi _ => hi⟩
        · simp only [forwardStep, ne_eq, hfirst, not_false_eq_true, if_true, Nat.add_sub_cancel]
        rw [forUp_sub (fun j => a (r + 1) j * Function.update s (indx (r + 1)) (s (r + 1)) j) _
          (by omega), hsum]
        congr 1
        rw [← sum_Ico_consecutive _ (show 1 ≤ ii by omega) (show ii ≤ r + 1 by omega)]
        have hleft : ∑ k ∈ Ico 1 ii, a (r + 1) k * s k = 0 := sum_eq_zero fun k hk => by
          simp only [mem_Ico] at hk
          rw [hzero k hk.1 (by omega) (.inr hk.2), mul_zero]
        rw [hleft, zero_add]
        exact sum_congr rfl fun k hk => by rw [hbefore k (mem_Ico.mp hk).2]
    obtain ⟨hskip, hkept⟩ := hskip
    rw [hstep]
    dsimp only
    have hsame : ∀ i, i < r + 1 → Function.update
        (Function.update s (indx (r + 1)) (s (r + 1))) (r + 1) x i = s i := fun i hi => by
      rw [Function.update_of_ne (by omega), hbefore i hi]
    have hrow : ∀ i, i ≤ r + 1 → ∑ k ∈ Ico 1 i, a i k * Function.update
        (Function.update s (indx (r + 1)) (s (r + 1))) (r + 1) x k =
          ∑ k ∈ Ico 1 i, a i k * s k := fun i hi =>
      sum_congr rfl fun k hk => by rw [hsame k (by simp only [mem_Ico] at hk; omega)]
    refine ⟨fun i hi hin => ?_, fun i hi hir => ?_, fun i hi hir hz => ?_, hii'⟩
    · rw [Function.update_of_ne (by omega), hrest' i (by omega) hin, Nat.add_sub_cancel]
    · rw [hrow i (by omega)]
      by_cases heq : i = r + 1
      · rw [heq, Function.update_self, hx]
      · rw [hsame i (by omega)]
        exact hdone i hi (by omega)
    · by_cases heq : i = r + 1
      · rw [heq, Function.update_self]
        exact hskip (heq ▸ hz)
      · rw [hsame i (by omega)]
        exact hzero i hi (by omega) (hkept i hz (by omega))

/-- The second loop: the numbers from the last one up. -/
theorem backward_spec (a : Block K) (n : Nat) (y : Nat → K) :
    ∀ i, 1 ≤ i → i ≤ n → forDown (backwardStep a n) n y i =
      (y i - ∑ k ∈ Ico (i + 1) (n + 1), a i k * forDown (backwardStep a n) n y k) / a i i := by
  have h := forDown_invariant (backwardStep a n)
    (fun r x => (∀ i, i ≤ r → x i = y i) ∧
      ∀ i, r < i → i ≤ n → x i = (y i - ∑ k ∈ Ico (i + 1) (n + 1), a i k * x k) / a i i)
    (n := n) (s := y) ⟨fun _ _ => rfl, fun i hi hin => by omega⟩ ?_
  · exact fun i hi hin => h.2 i (by omega) hin
  · rintro r x hr ⟨hbefore, hdone⟩
    have hsame : ∀ i, i ≠ r + 1 → backwardStep a n (r + 1) x i = x i := fun i hi =>
      Function.update_of_ne hi _ _
    have hrow : ∀ i, r + 1 ≤ i → ∑ k ∈ Ico (i + 1) (n + 1), a i k * backwardStep a n (r + 1) x k =
        ∑ k ∈ Ico (i + 1) (n + 1), a i k * x k := fun i hi =>
      sum_congr rfl fun k hk => by rw [hsame k (by simp only [mem_Ico] at hk; omega)]
    refine ⟨fun i hi => ?_, fun i hi hin => ?_⟩
    · rw [hsame i (by omega)]
      exact hbefore i (by omega)
    · rw [hrow i (by omega)]
      by_cases heq : i = r + 1
      · rw [heq, backwardStep, Function.update_self,
          forUp_sub (fun k => a (r + 1) k * x k) _ (by omega), hbefore (r + 1) le_rfl]
      · rw [hsame i heq]
        exact hdone i (by omega) hin

/-- `lubksb` solves the system of the matrix that was decomposed. -/
theorem lubksb_spec {A : Block K} {s : Elimination K} (h : Reduced A n n s) (b : Nat → K) :
    ∀ i, 1 ≤ i → i ≤ n → ∑ k ∈ Ico 1 (n + 1), A i k * lubksb s.a n s.indx b k = b i := by
  have hsolution := solution h.factors h.pivots (forward_spec (b := b) h.below)
    (backward_spec s.a n _)
  intro i hi hin
  -- the row of the exchanged matrix that is the row `i`
  obtain ⟨r, rfl⟩ := (exchange s.indx n).surjective i
  obtain ⟨hr, hrn⟩ := (exchange_range h.below le_rfl).mp ⟨hi, hin⟩
  exact hsolution r hr hrn

end Substitution

section Inverse

variable {K : Type} {n : Nat}

theorem fill_column (Y : Block K) (col : Nat → K) (j i k : Nat) :
    forUp 1 n (fun i Y => put Y i j (col i)) Y i k =
      if k = j ∧ 1 ≤ i ∧ i ≤ n then col i else Y i k := by
  have h := forUp_invariant (fun i Y => put Y i j (col i))
    (fun r s => ∀ i k, s i k = if k = j ∧ 1 ≤ i ∧ i < r then col i else Y i k)
    (show 1 ≤ n + 1 by omega) (s := Y) (fun i k => by rw [if_neg (by omega)]) ?_
  · rw [h i k]
    have hiff : (k = j ∧ 1 ≤ i ∧ i < n + 1) ↔ (k = j ∧ 1 ≤ i ∧ i ≤ n) := by omega
    simp only [hiff]
  · intro r s hr hrn hs i k
    by_cases hir : i = r
    · subst hir
      by_cases hkj : k = j
      · subst hkj
        rw [put_self, if_pos ⟨rfl, hr, by omega⟩]
      · rw [put_of_ne_column hkj, hs, if_neg (by omega), if_neg (by omega)]
    · rw [put_of_ne_row hir, hs]
      have hiff : (k = j ∧ 1 ≤ i ∧ i < r + 1) ↔ (k = j ∧ 1 ≤ i ∧ i < r) := by omega
      simp only [hiff]

variable [Field K]

/-- The right side for a column of the inverse. -/
theorem unit_column (col : Nat → K) (j : Nat) {i : Nat} (hi : 1 ≤ i) (hin : i ≤ n) :
    Function.update (forUp 1 n (fun i col => Function.update col i 0) col) j 1 i =
      if i = j then 1 else 0 := by
  have h := forUp_invariant (fun i (col : Nat → K) => Function.update col i 0)
    (fun r s => ∀ i, 1 ≤ i → i < r → s i = 0) (show 1 ≤ n + 1 by omega) (s := col)
    (fun i hi hlt => by omega) ?_
  · split_ifs with heq
    · rw [heq, Function.update_self]
    · rw [Function.update_of_ne heq]
      exact h i hi (by omega)
  · intro r s _ _ hs i hi hir
    by_cases heq : i = r
    · rw [heq, Function.update_self]
    · rw [Function.update_of_ne heq]
      exact hs i hi (by omega)

variable [LinearOrder K] [IsStrictOrderedRing K]

/-- The columns of the inverse solve the systems with the columns of the identity. -/
theorem invert_spec (A : Block K) (n : Nat) :
    (∃ Y, invert A n 0 = some Y ∧ (toMatrix n A).det ≠ 0 ∧
      toMatrix n A * toMatrix n Y = 1) ∨ (invert A n 0 = none ∧ (toMatrix n A).det = 0) := by
  unfold invert
  rcases ludcmp_spec A n with ⟨s, hs, hred⟩ | ⟨hnone, hdet⟩
  · refine .inl ?_
    simp only [hs, Option.bind_eq_bind, Option.bind_some, Option.some.injEq, exists_eq_left']
    have h := forUp_invariant (fun j (r : (Nat → K) × Block K) =>
        let col := invertColumn s.a n s.indx j r.1
        (col, forUp 1 n (fun i Y => put Y i j (col i)) r.2))
      (fun r p => ∀ i j, 1 ≤ i → i ≤ n → 1 ≤ j → j < r →
        ∑ k ∈ Ico 1 (n + 1), A i k * p.2 k j = if i = j then 1 else 0)
      (show 1 ≤ n + 1 by omega) (s := (fun _ => 0, fun _ _ => 0))
      (fun i j _ _ hj hlt => by omega) ?_
    · have hmul : ∀ Y : Block K, (∀ i j, 1 ≤ i → i ≤ n → 1 ≤ j → j < n + 1 →
          ∑ k ∈ Ico 1 (n + 1), A i k * Y k j = if i = j then 1 else 0) →
          toMatrix n A * toMatrix n Y = 1 := by
        intro Y hY
        ext i j
        have hij := hY (i + 1) (j + 1) (by omega) (by omega) (by omega) (by omega)
        rw [sum_Ico_one n fun k => A (i + 1) k * Y k (j + 1)] at hij
        rw [Matrix.mul_apply, Matrix.one_apply]
        simpa [Fin.ext_iff] using hij
      have hprod := hmul _ h
      refine ⟨fun hdet => ?_, hprod⟩
      have hone := congrArg Matrix.det hprod
      rw [Matrix.det_mul, hdet, zero_mul, Matrix.det_one] at hone
      exact zero_ne_one hone
    · rintro r ⟨col, Y⟩ hr hrn hY i j hi hin hj hjr
      dsimp only at hY ⊢
      by_cases heq : j = r
      · subst heq
        have hcolumn : ∑ k ∈ Ico 1 (n + 1), A i k *
            forUp 1 n (fun i Y => put Y i j (invertColumn s.a n s.indx j col i)) Y k j =
              ∑ k ∈ Ico 1 (n + 1), A i k * invertColumn s.a n s.indx j col k :=
          sum_congr rfl fun k hk => by
            rw [fill_column, if_pos ⟨rfl, by simp only [mem_Ico] at hk; omega⟩]
        rw [hcolumn, invertColumn, lubksb_spec hred _ i hi hin, unit_column col j hi hin]
      · rw [← hY i j hi hin hj (by omega)]
        refine sum_congr rfl fun k _ => ?_
        rw [fill_column, if_neg fun h => heq h.1]
  · exact .inr ⟨by simp [hnone], hdet⟩

end Inverse

/-! ### Matrices as data -/

section Data

variable {K : Type} {n m l : Nat} {type : DataType}

/-- The first `n` rows and `m` columns of a block. -/
def block (n m : Nat) (A : Block K) : Matrix (Fin n) (Fin m) K := .of fun i j => A (i + 1) (j + 1)

/-- A list or an array of the rows of a matrix. -/
def dataOf (type : DataType) (M : Matrix (Fin n) (Fin m) K) : MatrixCell K :=
  type.cell (List.ofFn fun i => type.cell (List.ofFn fun j => .number (M i j)))

theorem matrix2data_eq (A : Block K) (type : DataType) (n m : Nat) :
    matrix2data A type n m = dataOf type (block n m A) := by
  have hrange : ∀ {α : Type} (k : Nat) (f : Nat → α),
      (List.range' 1 k).map f = List.ofFn fun i : Fin k => f (i + 1) := by
    intro α k f
    refine List.ext_getElem (by simp) fun i h h' => ?_
    simp [Nat.add_comm]
  rw [matrix2data, hrange, dataOf]
  simp only [hrange]
  rfl

variable [Zero K]

/-- The data stands for a matrix: rows that are too short are filled up with zeros. -/
def Holds (data : MatrixCell K) (type : DataType) (M : Matrix (Fin n) (Fin m) K) : Prop :=
  ∃ A, getMatrix data = .value (type, n, m, A) ∧ block n m A = M

omit [Zero K] in
theorem getDimensions_expression {rows : List (MatrixCell K)}
    (h : getDimensions (.expression rows) = .value (n, m)) : 1 ≤ n ∧ 1 ≤ m := by
  cases rows with
  | nil => cases h
  | cons row rows =>
      cases row with
      | expression cells =>
          cases cells with
          | nil => cases h
          | cons cell cells =>
              obtain ⟨rfl, rfl⟩ := Prod.mk.inj (Outcome.value.inj h)
              exact ⟨by omega, by simp⟩
      | _ => cases h

omit [Zero K] in
theorem getDimensions_array {rows : List (MatrixCell K)}
    (h : getDimensions (.array rows) = .value (n, m)) : 1 ≤ n := by
  cases rows with
  | nil => cases h
  | cons row rows =>
      cases row with
      | array cells =>
          obtain ⟨rfl, -⟩ := Prod.mk.inj (Outcome.value.inj h)
          omega
      | _ => cases h

/-- A matrix has a row, and a list of lists a column. -/
theorem Holds.pos {data : MatrixCell K} {M : Matrix (Fin n) (Fin m) K} (h : Holds data type M) :
    1 ≤ n ∧ (type = .expression → 1 ≤ m) := by
  obtain ⟨A, h, -⟩ := h
  simp only [getMatrix, Outcome.bind_eq_value_iff, Prod.exists] at h
  obtain ⟨n', m', hdims, h⟩ := h
  cases data with
  | expression rows =>
      simp only [Outcome.value.injEq, Prod.mk.injEq] at h
      obtain ⟨-, rfl, rfl, -⟩ := h
      exact ⟨(getDimensions_expression hdims).1, fun _ => (getDimensions_expression hdims).2⟩
  | array rows =>
      simp only [Outcome.value.injEq, Prod.mk.injEq] at h
      obtain ⟨rfl, rfl, rfl, -⟩ := h
      exact ⟨getDimensions_array hdims, fun h => by cases h⟩
  | _ => cases h

theorem rowNumber_cell (type : DataType) (cells : List (MatrixCell K)) (j : Nat) :
    rowNumber type (type.cell cells) j = getDirectFloat (cells.getD (j - 1) .other) := by
  cases type <;> rfl

/-- The data of a matrix stands for it. -/
theorem holds_dataOf (type : DataType) (M : Matrix (Fin n) (Fin m) K) (hn : 1 ≤ n)
    (hm : type = .expression → 1 ≤ m) : Holds (dataOf type M) type M := by
  obtain ⟨n, rfl⟩ := Nat.exists_eq_add_of_le' hn
  refine ⟨data2matrix type (List.ofFn fun i => type.cell (List.ofFn fun j => .number (M i j))),
    ?_, ?_⟩
  · cases type with
    | expression =>
        obtain ⟨m, rfl⟩ := Nat.exists_eq_add_of_le' (hm rfl)
        simp [getMatrix, dataOf, DataType.cell, getDimensions, List.ofFn_succ]
    | array => simp [getMatrix, dataOf, DataType.cell, getDimensions, List.ofFn_succ]
  · have hcell : ∀ {k : Nat} (f : Fin k → MatrixCell K) (i : Fin k),
        (List.ofFn f).getD (i + 1 - 1) .other = f i := by
      intro k f i
      simp [List.getD_eq_getElem?_getD]
    ext i j
    simp only [block, Matrix.of_apply, data2matrix, hcell, rowNumber_cell, getDirectFloat]

end Data

/-! ### The product -/

section Product

variable {K : Type} [Semiring K] {n m l k : Nat} {typeX typeY : DataType}

/-- One number of the product after another, row by row. -/
theorem multiply_spec (A B : Block K) (n m l : Nat) :
    block n l (multiply A B n m l) = block n m A * block m l B := by
  have hsum : ∀ i j, forUp 1 m (fun s sum => sum + A i s * B s j) 0 =
      ∑ s ∈ Ico 1 (m + 1), A i s * B s j := fun i j =>
    forUp_add (fun s => A i s * B s j) (by omega)
  have hrow : ∀ (C : Block K) i, 1 ≤ i → ∀ i' j, 1 ≤ j → j ≤ l →
      forUp 1 l (fun j C => put C i j (forUp 1 m (fun s sum => sum + A i s * B s j) 0)) C i' j =
        if i' = i then ∑ s ∈ Ico 1 (m + 1), A i s * B s j else C i' j := by
    intro C i hi i' j hj hjl
    have h := forUp_invariant
      (fun j C => put C i j (forUp 1 m (fun s sum => sum + A i s * B s j) 0))
      (fun r D => ∀ i' j, 1 ≤ j → D i' j =
        if i' = i ∧ j < r then ∑ s ∈ Ico 1 (m + 1), A i s * B s j else C i' j)
      (show 1 ≤ l + 1 by omega) (s := C) (fun i' j hj => by rw [if_neg (by omega)]) ?_
    · rw [h i' j hj]
      simp only [show j < l + 1 by omega, and_true]
    · intro r D hr hrl hD i' j hj
      by_cases hi' : i' = i
      · subst hi'
        by_cases heq : j = r
        · subst heq
          rw [put_self, hsum, if_pos ⟨rfl, by omega⟩]
        · rw [put_of_ne_column heq, hD i' j hj]
          simp only [true_and, show j < r + 1 ↔ j < r by omega]
      · rw [put_of_ne_row hi', hD i' j hj]
        simp only [hi', false_and]
  have h := forUp_invariant
    (fun i C => forUp 1 l (fun j C =>
      put C i j (forUp 1 m (fun s sum => sum + A i s * B s j) 0)) C)
    (fun r C => ∀ i j, 1 ≤ i → i < r → 1 ≤ j → j ≤ l →
      C i j = ∑ s ∈ Ico 1 (m + 1), A i s * B s j)
    (show 1 ≤ n + 1 by omega) (s := fun _ _ => 0) (fun i j hi hlt => by omega) ?_
  · ext i j
    have hij := h (i + 1) (j + 1) (by omega) (by omega) (by omega) (by omega)
    rw [sum_Ico_one m fun s => A (i + 1) s * B s (j + 1)] at hij
    rw [Matrix.mul_apply]
    exact hij
  · intro r C hr hrn hC i j hi hir hj hjl
    rw [hrow C r hr i j hj hjl]
    split_ifs with heq
    · rw [heq]
    · exact hC i j hi (by omega) hj hjl

/-- The type of the data of a product. -/
def typeM (typeX typeY : DataType) : DataType :=
  if typeX = .array ∨ typeY = .array then .array else .expression

theorem p_matMultiply_spec {x y : MatrixCell K} {X : Matrix (Fin n) (Fin m) K}
    {Y : Matrix (Fin m) (Fin l) K} (hx : Holds x typeX X) (hy : Holds y typeY Y) :
    p_matMultiply x y = .value (dataOf (typeM typeX typeY) (X * Y)) := by
  obtain ⟨A, hA, rfl⟩ := hx
  obtain ⟨B, hB, rfl⟩ := hy
  simp only [p_matMultiply, hA, hB, Outcome.value_bind, ne_eq, not_true_eq_false, if_false,
    matrix2data_eq, multiply_spec, typeM]

end Product

/-! ### The primitives -/

section Primitives

variable {K : Type} [Field K] [LinearOrder K] [IsStrictOrderedRing K] {n m : Nat}
  {type : DataType} {data : MatrixCell K}

/-- The inverse, as data of the type of the matrix; `nil` for a singular one. -/
theorem p_matInvert_eq {M : Matrix (Fin n) (Fin n) K} (h : Holds data type M) :
    p_matInvert data 0 = .value (if M.det = 0 then none else some (dataOf type M⁻¹)) := by
  obtain ⟨A, hA, rfl⟩ := h
  simp only [p_matInvert, hA, Outcome.value_bind, ne_eq, not_true_eq_false, if_false]
  change _ = Outcome.value (if (toMatrix n A).det = 0 then _
    else some (dataOf type (toMatrix n A)⁻¹))
  rcases invert_spec A n with ⟨Y, hY, hdet, hmul⟩ | ⟨hnone, hdet⟩
  · rw [hY, Option.map_some, if_neg hdet, matrix2data_eq, Matrix.inv_eq_right_inv hmul]
    rfl
  · rw [hnone, Option.map_none, if_pos hdet]

theorem p_determinant_eq {M : Matrix (Fin n) (Fin n) K} (h : Holds data type M) :
    p_determinant data 0 = .value (if M.det = 0 then none else some M.det) := by
  obtain ⟨A, hA, rfl⟩ := h
  simp only [p_determinant, hA, Outcome.value_bind, ne_eq, not_true_eq_false, if_false]
  change _ = Outcome.value (if (toMatrix n A).det = 0 then _
    else some (toMatrix n A).det)
  rcases ludcmp_spec A n with ⟨s, hs, hred⟩ | ⟨hnone, hdet⟩
  · -- the exchanges of the rows only change the sign
    have hprod : s.d * ∏ k ∈ Ico 1 (n + 1), s.a k k = (toMatrix n A).det := by
      have hdet := det_of_factors hred.factors
      rw [hred.det] at hdet
      rw [← hdet, ← mul_assoc, hred.sign, one_mul]
    have hne : (toMatrix n A).det ≠ 0 := by
      rw [← hprod]
      refine mul_ne_zero (fun hd => ?_) (prod_ne_zero_iff.mpr fun k hk => ?_)
      · have hsign := hred.sign
        rw [hd, mul_zero] at hsign
        exact zero_ne_one hsign
      · simp only [mem_Ico] at hk
        exact hred.pivots k hk.1 (by omega)
    rw [hs, Option.map_some, forUp_mul (fun i => s.a i i) s.d (by omega), hprod, if_neg hne]
  · rw [hnone, Option.map_none, if_pos hdet]

/-- Inverse, determinant and product of exact numbers: `invert` answers with the inverse, as data
of the type of the matrix, or with `nil` for a singular one, as `det` does. -/
theorem matrices_exact {M : Matrix (Fin n) (Fin n) K} (h : Holds data type M) :
    ((M.det = 0 ∧ p_matInvert data 0 = .value none ∧ p_determinant data 0 = .value none) ∨
      (M.det ≠ 0 ∧ (∃ Y : Matrix (Fin n) (Fin n) K, M * Y = 1 ∧ Y * M = 1 ∧
          p_matInvert data 0 = .value (some (dataOf type Y))) ∧
        p_determinant data 0 = .value (some M.det))) ∧
    ∀ (k m l : Nat) (typeX typeY : DataType) (x y : MatrixCell K) (X : Matrix (Fin k) (Fin m) K)
      (Y : Matrix (Fin m) (Fin l) K), Holds x typeX X → Holds y typeY Y →
        p_matMultiply x y = .value (dataOf (typeM typeX typeY) (X * Y)) := by
  refine ⟨?_, fun k m l typeX typeY x y X Y hx hy => p_matMultiply_spec hx hy⟩
  rw [p_matInvert_eq h, p_determinant_eq h]
  by_cases hdet : M.det = 0
  · exact .inl ⟨hdet, by rw [if_pos hdet], by rw [if_pos hdet]⟩
  · have hunit : IsUnit M.det := isUnit_iff_ne_zero.mpr hdet
    refine .inr ⟨hdet,
      ⟨M⁻¹, Matrix.mul_nonsing_inv M hunit, Matrix.nonsing_inv_mul M hunit, ?_⟩, ?_⟩
    · rw [if_neg hdet]
    · rw [if_neg hdet]

/-- `((2 1) (1 1))` has an inverse, and `((1 2) (2 4))` has none. -/
theorem matrices_exact_two :
    (∃ inverse : MatrixCell ℚ,
      p_matInvert (.expression [.expression [.number 2, .number 1],
        .expression [.number 1, .number 1]]) 0 = .value (some inverse)) ∧
      p_matInvert (.array [.array [.number 1, .number 2],
        .array [.number 2, .number 4]] : MatrixCell ℚ) 0 = .value none := by
  have hregular := (matrices_exact (holds_dataOf .expression
    (!![2, 1; 1, 1] : Matrix (Fin 2) (Fin 2) ℚ) (by decide) fun _ => by decide)).1
  have hsingular := (matrices_exact (holds_dataOf .array
    (!![1, 2; 2, 4] : Matrix (Fin 2) (Fin 2) ℚ) (by decide) fun _ => by decide)).1
  rw [Matrix.det_fin_two_of] at hregular hsingular
  norm_num at hregular hsingular
  obtain ⟨⟨Y, -, -, hinverse⟩, -⟩ := hregular
  exact ⟨⟨_, hinverse⟩, hsingular.1⟩

/-- `invert` and `multiply` of exact numbers: a matrix has an inverse, which is data of its own
type, unless it is singular.  Its products with the matrix are the identity, and its inverse is
the matrix. -/
theorem p_matInvert_multiply {M : Matrix (Fin n) (Fin n) K} (h : Holds data type M) :
    (M.det = 0 ∧ p_matInvert data 0 = .value none) ∨
      (M.det ≠ 0 ∧ ∃ inverse, p_matInvert data 0 = .value (some inverse) ∧
        p_matMultiply data inverse = .value (dataOf type (1 : Matrix (Fin n) (Fin n) K)) ∧
        p_matMultiply inverse data = .value (dataOf type (1 : Matrix (Fin n) (Fin n) K)) ∧
        p_matInvert inverse 0 = .value (some (dataOf type M))) := by
  by_cases hdet : M.det = 0
  · exact .inl ⟨hdet, by rw [p_matInvert_eq h, if_pos hdet]⟩
  · have hunit : IsUnit M.det := isUnit_iff_ne_zero.mpr hdet
    have hinverse : Holds (dataOf type M⁻¹) type M⁻¹ :=
      holds_dataOf type M⁻¹ h.pos.1 fun ht => h.pos.2 ht
    have htype : typeM type type = type := by cases type <;> rfl
    refine .inr ⟨hdet, dataOf type M⁻¹, by rw [p_matInvert_eq h, if_neg hdet], ?_, ?_, ?_⟩
    · rw [p_matMultiply_spec h hinverse, Matrix.mul_nonsing_inv M hunit, htype]
    · rw [p_matMultiply_spec hinverse h, Matrix.nonsing_inv_mul M hunit, htype]
    · have hne : M⁻¹.det ≠ 0 := by
        rw [Matrix.det_nonsing_inv, Ring.inverse_eq_inv']
        exact inv_ne_zero hdet
      rw [p_matInvert_eq hinverse, if_neg hne, Matrix.nonsing_inv_nonsing_inv M hunit]

/-- `(invert '((2 1) (1 1)))` -/
theorem p_matInvert_multiply_two :
    ∃ inverse : MatrixCell ℚ,
      p_matInvert (.expression [.expression [.number 2, .number 1],
        .expression [.number 1, .number 1]]) 0 = .value (some inverse) ∧
      p_matMultiply (.expression [.expression [.number 2, .number 1],
        .expression [.number 1, .number 1]]) inverse =
          .value (.expression [.expression [.number 1, .number 0],
            .expression [.number 0, .number 1]]) := by
  have h := p_matInvert_multiply (holds_dataOf .expression
    (!![2, 1; 1, 1] : Matrix (Fin 2) (Fin 2) ℚ) (by decide) fun _ => by decide)
  obtain ⟨-, inverse, hinv, hmul, -⟩ := h.resolve_left fun h => by
    have hdet := h.1
    rw [Matrix.det_fin_two_of] at hdet
    norm_num at hdet
  exact ⟨inverse, hinv, hmul⟩

/-- `det` of exact numbers is the determinant, with `nil` for zero, and that of a product is the
product of the determinants. -/
theorem p_determinant_multiply {typeX typeY : DataType} {x y : MatrixCell K}
    {X Y : Matrix (Fin n) (Fin n) K} (hx : Holds x typeX X) (hy : Holds y typeY Y) :
    p_determinant x 0 = .value (if X.det = 0 then none else some X.det) ∧
      ∃ product, p_matMultiply x y = .value product ∧
        p_determinant product 0 =
          .value (if X.det = 0 ∨ Y.det = 0 then none else some (X.det * Y.det)) := by
  refine ⟨p_determinant_eq hx, _, p_matMultiply_spec hx hy, ?_⟩
  have hproduct : Holds (dataOf (typeM typeX typeY) (X * Y)) (typeM typeX typeY) (X * Y) :=
    holds_dataOf _ _ hx.pos.1 fun _ => hx.pos.1
  rw [p_determinant_eq hproduct, Matrix.det_mul]
  simp only [mul_eq_zero]

/-- `(det '((2 1) (1 1)))` -/
theorem p_determinant_multiply_two :
    p_determinant (.expression [.expression [.number 2, .number 1],
      .expression [.number 1, .number 1]] : MatrixCell ℚ) 0 = .value (some 1) := by
  have hholds := holds_dataOf .expression
    (!![2, 1; 1, 1] : Matrix (Fin 2) (Fin 2) ℚ) (by decide) fun _ => by decide
  have h := (p_determinant_multiply hholds hholds).1
  have hdet : (!![2, 1; 1, 1] : Matrix (Fin 2) (Fin 2) ℚ).det = 1 := by
    rw [Matrix.det_fin_two_of]
    norm_num
  rw [hdet, if_neg one_ne_zero] at h
  exact h

end Primitives

end Matrices

end NewLispNeo
