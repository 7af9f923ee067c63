/-
Long division of bigints: `divModBigint`.  Each digit of the quotient is estimated
in `double` arithmetic from the leading digits and then counted down.
-/
import NewLispNeo.BigintArith
import NewLispNeo.Rounding

namespace NewLispNeo

namespace Bigint

/-- An operation on `double`.  The numbers here are far from overflow and never
between 0 and 1/2. -/
def double (v : ℚ) : ℚ := Rounding.round 52 v

/-- `bigintToAbsFloat`. -/
def bigintToAbsFloat (numPtr : List Nat) (n : Int) : ℚ :=
  (numPtr.tail.take (n - 1).toNat).foldl
    (fun value d => double (double (value * base) + d)) (numPtr.head?.getD 0 : Nat)

/-- The leading digits: two of the divisor, and those above them of the remainder. -/
def yFloat (y : List Nat) : ℚ :=
  bigintToAbsFloat y (if 2 < y.length then 2 else y.length)

def rFloat (r y : List Nat) : ℚ :=
  bigintToAbsFloat r (if 2 < y.length then r.length + 2 - y.length else r.length)

/-- The digit before correction; none where the remainder counts as too small. -/
def estimate (yFloat rFloat : ℚ) : Option Nat :=
  if rFloat < yFloat then none
  else if yFloat = rFloat then some 1
  else some (int32 ⌊double (double (rFloat / yFloat) + 1)⌋).toNat

/-- The loop at `PRODUCT`: the digits from the last one on, and the last carry. -/
def productDigits (q carry : Nat) : List Nat → List Nat × Nat
  | [] => ([], carry)
  | y :: ys =>
      let digit := int64 (int64 (y * q) + carry)
      if base ≤ digit then
        let (ps, last) := productDigits q (int32 (carryOf digit)).toNat ys
        (digitOf digit :: ps, last)
      else
        let (ps, last) := productDigits q 0 ys
        (digit.toNat :: ps, last)

/-- The array `p`, shifted right for a carry. -/
def product (y : List Nat) (q : Nat) : List Nat :=
  let (ps, carry) := productDigits q 0 y.reverse
  if carry ≠ 0 then carry :: ps.reverse else ps.reverse

/-- The digit, its product with the divisor, and the highest index written to `p`. -/
structure Corrected where
  digit : Nat
  p : List Nat
  highest : Nat

/-- From `PRODUCT` on, until the product is not above the remainder.  There is no
digit below zero. -/
def correct (r y : List Nat) : Nat → Outcome Error Corrected
  | 0 =>
      let p := product y 0
      if cmpAbsBigint ⟨false, r⟩ ⟨false, p⟩ < 0 then .undefined
      else .value ⟨0, p, p.length⟩
  | q + 1 =>
      let p := product y (q + 1)
      if cmpAbsBigint ⟨false, r⟩ ⟨false, p⟩ < 0 then do
        let done ← correct r y q
        pure { done with highest := max p.length done.highest }
      else .value ⟨q + 1, p, p.length⟩

/-- The highest index written to each of the arrays. -/
structure Extent where
  r : Nat
  q : Nat
  p : Nat

/-- The arrays `r` and `q`, and what has been written. -/
structure DivState where
  r : List Nat
  q : List Nat
  extent : Extent

/-- From `TRIM_ZEROS` on.  Before the last digit a zero remainder gets no digit. -/
def trimZeros (last : Bool) (r : List Nat) : List Nat :=
  if (trim r).head? = some 0 ∧ last = false then [] else trim r

/-- A round of the loop over the digits of `x`. -/
def divRound (y : List Nat) (last : Bool) (state : DivState) (x : Nat) :
    Outcome Error DivState :=
  let r := state.r ++ [x]
  let extent := { state.extent with r := max state.extent.r r.length }
  if state.q = [] ∧ cmpAbsBigint ⟨false, r⟩ ⟨false, y⟩ < 0 then .value ⟨r, state.q, extent⟩
  else
    let extent := { extent with q := state.q.length + 1 }
    match estimate (yFloat y) (rFloat r y) with
    | none => .value ⟨trimZeros last r, state.q ++ [0], extent⟩
    | some q => do
        let done ← correct r y q
        pure ⟨trimZeros last (subDigits 0 r.reverse done.p.reverse).reverse,
          state.q ++ [done.digit], { extent with p := max extent.p done.highest }⟩

def divLoop (y : List Nat) : List Nat → DivState → Outcome Error DivState
  | [], state => .value state
  | x :: xs, state => do
      let state ← divRound y xs.isEmpty state x
      divLoop y xs state

/-- The call and what it wrote to its arrays. -/
structure Division where
  call : Call
  extent : Extent

/-- `divModBigint`. -/
def divModBigint (x y : Bigint) (rmndr : Bool) : Outcome Error Division :=
  if y.digits = [0] then .error .math
  else if cmpAbsBigint x y < 0 then
    .value ⟨⟨if rmndr then x else ⟨false, [0]⟩, x, y⟩, ⟨0, 0, 0⟩⟩
  else do
    let state ← divLoop y.digits x.digits ⟨[], [], ⟨0, 0, 0⟩⟩
    let result : Bigint :=
      if rmndr then ⟨x.negative, state.r⟩ else ⟨x.negative != y.negative, state.q⟩
    pure ⟨⟨result, x, y⟩, state.extent⟩

/-- What is written lies in the arrays, which are allocated with `nx + 1`,
`nx - ny + 1` and `nx + 1` numbers, the sign among them. -/
structure Division.InBounds (division : Division) (x y : Bigint) : Prop where
  r : division.extent.r ≤ x.digits.length
  q : division.extent.q ≤ x.digits.length - y.digits.length
  p : division.extent.p ≤ x.digits.length

/-- The number of a digit list, the highest digit first. -/
abbrev number (ds : List Nat) : Nat := Nat.ofDigits base ds.reverse

section Double

variable {u v e : ℚ} {n : Nat}

theorem double_mono (hu : 0 ≤ u) (h : u ≤ v) : double u ≤ double v :=
  Rounding.round_mono hu h

/-- A digit times the base fits, so the first product is exact. -/
theorem double_digit {a : Nat} (ha : a ≤ base) : double (a * base) = a * base := by
  have hfits : a * 5 ^ 9 < 2 ^ (52 + 1) := by
    rw [show base = 1000000000 from rfl] at ha
    omega
  have hexact := Rounding.round_exact (p := 52) 9 hfits
  have hvalue : ((a * 5 ^ 9 : Nat) : ℚ) * 2 ^ (9 : ℤ) = a * base := by
    rw [show base = 1000000000 from rfl]
    push_cast
    ring
  rwa [hvalue] at hexact

/-- `a` is within the relative error `e` of `v`. -/
def Within (e a v : ℚ) : Prop := (1 - e) * v ≤ a ∧ a ≤ (1 + e) * v

variable {a c : ℚ}

theorem Within.double (h : Within e a v) (hv : 0 ≤ v) (hle : e ≤ 1 / 2) :
    Within (e + 1 / 2 ^ 52) (double a) v := by
  obtain ⟨hlow, hhigh⟩ := h
  have hpos : 0 ≤ a := le_trans (mul_nonneg (by linarith) hv) hlow
  have herror := abs_le.mp (Rounding.round_error 52 hpos)
  have hev : e * v ≤ 1 / 2 * v := by gcongr
  constructor
  · have hround : a - a / 2 ^ 53 ≤ Bigint.double a := by
      unfold Bigint.double
      linarith [herror.1]
    linarith
  · have hround : Bigint.double a ≤ a + a / 2 ^ 53 := by
      unfold Bigint.double
      linarith [herror.2]
    linarith

theorem Within.mul (h : Within e a v) (hc : 0 ≤ c) : Within e (a * c) (v * c) := by
  obtain ⟨hlow, hhigh⟩ := h
  constructor
  · calc (1 - e) * (v * c) = (1 - e) * v * c := by ring
      _ ≤ a * c := by gcongr
  · calc a * c ≤ (1 + e) * v * c := by gcongr
      _ = (1 + e) * (v * c) := by ring

theorem Within.add (h : Within e a v) (he : 0 ≤ e) (hc : 0 ≤ c) :
    Within e (a + c) (v + c) := by
  obtain ⟨hlow, hhigh⟩ := h
  have hec : 0 ≤ e * c := mul_nonneg he hc
  constructor
  · linarith
  · linarith

theorem Within.mono {f : ℚ} (h : Within e a v) (hv : 0 ≤ v) (hle : e ≤ f) :
    Within f a v := by
  have hmul : e * v ≤ f * v := by gcongr
  obtain ⟨hlow, hhigh⟩ := h
  constructor
  · linarith
  · linarith

end Double

section Leading

variable {a b c : Nat} {ds : List Nat} {n : Int}

theorem number_cons (a : Nat) (ds : List Nat) :
    number (a :: ds) = a * base ^ ds.length + number ds := by
  rw [number, List.reverse_cons, Nat.ofDigits_append, Nat.ofDigits_singleton,
    List.length_reverse]
  ring

theorem number_lt (h : ∀ d ∈ ds, d < base) : number ds < base ^ ds.length := by
  have hlt := @ofDigits_lt ds.reverse fun d hd => h d (List.mem_reverse.mp hd)
  rwa [List.length_reverse] at hlt

theorem number_append (ds : List Nat) (d : Nat) :
    number (ds ++ [d]) = number ds * base + d := by
  rw [number, List.reverse_append, List.reverse_singleton, List.singleton_append,
    Nat.ofDigits_cons]
  ring

theorem absFloat_one (hn : n ≤ 1) : bigintToAbsFloat (a :: ds) n = a := by
  unfold bigintToAbsFloat
  rw [show (n - 1).toNat = 0 by omega]
  rfl

theorem absFloat_two (ha : a ≤ base) :
    bigintToAbsFloat (a :: b :: ds) 2 = double (a * base + b) := by
  unfold bigintToAbsFloat
  rw [show ((2 : Int) - 1).toNat = 1 from rfl]
  simp [double_digit ha]

theorem absFloat_three (ha : a ≤ base) : bigintToAbsFloat (a :: b :: c :: ds) 3 =
    double (double (double (a * base + b) * base) + c) := by
  unfold bigintToAbsFloat
  rw [show ((3 : Int) - 1).toNat = 2 from rfl]
  simp [double_digit ha]

/-- The relative error of the leading digits in `double` arithmetic. -/
def slack : ℚ := 1 / 2 ^ 49

theorem within_one (a : Nat) : Within slack a a := by
  have hpos : (0 : ℚ) ≤ a := Nat.cast_nonneg a
  unfold Within slack
  constructor
  · linarith
  · linarith

theorem within_two (a b : Nat) :
    Within (1 / 2 ^ 52) (double (a * base + b)) ((a * base + b : Nat) : ℚ) := by
  have hexact : Within 0 ((a : ℚ) * base + b) ((a * base + b : Nat) : ℚ) := by
    unfold Within
    push_cast
    constructor
    · linarith
    · linarith
  simpa using hexact.double (Nat.cast_nonneg _) (by norm_num)

theorem within_three (a b c : Nat) :
    Within slack (double (double (double (a * base + b) * base) + c))
      (((a * base + b) * base + c : Nat) : ℚ) := by
  have hbase : (0 : ℚ) ≤ base := Nat.cast_nonneg base
  have hfirst := ((within_two a b).mul hbase).double
    (by positivity) (by norm_num)
  have hsecond := (hfirst.add (c := (c : ℚ)) (by norm_num) (Nat.cast_nonneg c)).double
    (by positivity) (by norm_num)
  have hthird := hsecond.mono (f := slack) (by positivity) (by norm_num [slack])
  push_cast at hthird ⊢
  exact hthird

theorem base_le_double (ha : 1 ≤ a) : (base : ℚ) ≤ double (a * base + b) := by
  have hone := double_digit (a := 1) (by decide)
  rw [Nat.cast_one, one_mul] at hone
  have hbase : (0 : ℚ) ≤ base := Nat.cast_nonneg base
  have hcast : (1 : ℚ) ≤ a := by exact_mod_cast ha
  have hb : (0 : ℚ) ≤ b := Nat.cast_nonneg b
  calc (base : ℚ) = double base := hone.symm
    _ ≤ double (a * base + b) := double_mono hbase (by nlinarith)

theorem double_le_square (ha : a < base) (hb : b < base) :
    double (a * base + b) ≤ base * base := by
  have hcast : ((a : ℚ) * base + b) ≤ (base : Nat) * (base : Nat) := by
    have hle : a * base + b ≤ base * base := by
      rw [show base = 1000000000 from rfl] at *
      omega
    exact_mod_cast hle
  calc double (a * base + b) ≤ double ((base : Nat) * (base : Nat)) :=
        double_mono (by positivity) hcast
    _ = base * base := double_digit le_rfl

theorem square_le_double (ha : 1 ≤ a) :
    (base : ℚ) * base ≤ double (double (double (a * base + b) * base) + c) := by
  have hbase : (0 : ℚ) ≤ base := Nat.cast_nonneg base
  have hsquare := double_digit (a := base) le_rfl
  have hfirst : (base : ℚ) * base ≤ double (double (a * base + b) * base) := by
    calc (base : ℚ) * base = double (base * base) := hsquare.symm
      _ ≤ _ := double_mono (by positivity) (by gcongr; exact base_le_double ha)
  calc (base : ℚ) * base = double (base * base) := hsquare.symm
    _ ≤ _ := double_mono (by positivity)
      (hfirst.trans (le_add_of_nonneg_right (Nat.cast_nonneg c)))

end Leading

section Estimate

variable {r y : List Nat} {yn rn : Bool}

/-- What is known of the digits of the divisor. -/
theorem Canonical.divisor (hy : Canonical ⟨yn, y⟩) (hne : y ≠ [0]) :
    ∃ a ys, y = a :: ys ∧ 1 ≤ a ∧ a < base ∧ ∀ d ∈ ys, d < base := by
  cases y with
  | nil => exact absurd rfl hy.ne_nil
  | cons a ys =>
      have hlead : a ≠ 0 := by simpa using hy.leading.resolve_left hne
      exact ⟨a, ys, rfl, Nat.one_le_iff_ne_zero.mpr hlead, hy.lt_base a List.mem_cons_self,
        fun d hd => hy.lt_base d (List.mem_cons_of_mem a hd)⟩

/-- A remainder with fewer digits counts as too small. -/
theorem rFloat_lt_of_length (hy : Canonical ⟨yn, y⟩) (hne : y ≠ [0])
    (hr : Canonical ⟨rn, r⟩) (hlen : r.length < y.length) : rFloat r y < yFloat y := by
  obtain ⟨a, ys, rfl, ha, halt, hys⟩ := hy.divisor hne
  cases r with
  | nil => exact absurd rfl hr.ne_nil
  | cons d rs =>
      cases ys with
      | nil => simp at hlen
      | cons b ys =>
          have hn : ∀ k : Nat, (if 2 < k + 2 then (2 : Int) else ((k + 2 : Nat) : Int)) = 2 := by
            intro k
            split_ifs
            · rfl
            · omega
          have hyFloat : yFloat (a :: b :: ys) = double (a * base + b) := by
            unfold yFloat
            rw [List.length_cons, List.length_cons, hn]
            exact absFloat_two halt.le
          have hrFloat : rFloat (d :: rs) (a :: b :: ys) = d := by
            refine absFloat_one ?_
            simp only [List.length_cons] at hlen ⊢
            split_ifs <;> omega
          have hd : (d : ℚ) < base := by exact_mod_cast hr.lt_base d List.mem_cons_self
          rw [hyFloat, hrFloat]
          exact hd.trans_le (base_le_double ha)

/-- The leading digits `Y` and `R` that an estimate rests on. -/
structure Leading (r y : List Nat) (Y R : Nat) : Prop where
  pos : 0 < Y
  yWithin : Within slack (yFloat y) Y
  rWithin : Within slack (rFloat r y) R
  scale : ∃ k, Y * base ^ k ≤ number y ∧ number y < (Y + 1) * base ^ k ∧
    R * base ^ k ≤ number r ∧ number r < (R + 1) * base ^ k
  order : number y ≤ number r → yFloat y ≤ rFloat r y

theorem scale_cons {a : Nat} {ds : List Nat} (h : ∀ d ∈ ds, d < base) :
    a * base ^ ds.length ≤ number (a :: ds) ∧
      number (a :: ds) < (a + 1) * base ^ ds.length := by
  have hlt := number_lt h
  rw [number_cons, Nat.add_mul, Nat.one_mul]
  omega

theorem scale_cons_cons {a b : Nat} {ds : List Nat} (h : ∀ d ∈ ds, d < base) :
    (a * base + b) * base ^ ds.length ≤ number (a :: b :: ds) ∧
      number (a :: b :: ds) < (a * base + b + 1) * base ^ ds.length := by
  have hlt := number_lt h
  have hvalue : number (a :: b :: ds) = (a * base + b) * base ^ ds.length + number ds := by
    rw [number_cons, number_cons, List.length_cons, Nat.pow_succ]
    ring
  rw [hvalue, Nat.add_mul (a * base + b), Nat.one_mul]
  omega

theorem scale_cons_cons_cons {a b c : Nat} {ds : List Nat} (h : ∀ d ∈ ds, d < base) :
    ((a * base + b) * base + c) * base ^ ds.length ≤ number (a :: b :: c :: ds) ∧
      number (a :: b :: c :: ds) < ((a * base + b) * base + c + 1) * base ^ ds.length := by
  have hlt := number_lt h
  have hvalue : number (a :: b :: c :: ds) =
      ((a * base + b) * base + c) * base ^ ds.length + number ds := by
    rw [number_cons, number_cons, number_cons, List.length_cons, List.length_cons,
      Nat.pow_succ, Nat.pow_succ]
    ring
  rw [hvalue, Nat.add_mul ((a * base + b) * base + c), Nat.one_mul]
  omega

theorem leading_one {a : Nat} (ha : 1 ≤ a) (halt : a < base) (hr : Canonical ⟨rn, r⟩)
    (hlen : r.length ≤ 2) (hpos : r ≠ [0]) : ∃ Y R, Leading r [a] Y R := by
  obtain ⟨c, rs, rfl, hc, hclt, hrs⟩ := hr.divisor hpos
  have hyFloat : yFloat [a] = a := absFloat_one (by simp)
  have hscaleY := @scale_cons a [] (by simp)
  cases rs with
  | nil =>
      have hrFloat : rFloat [c] [a] = c := absFloat_one (by simp)
      have hscaleR := @scale_cons c [] (by simp)
      refine ⟨a, c, ha, ?_, ?_, ⟨0, hscaleY.1, hscaleY.2, hscaleR.1, hscaleR.2⟩, ?_⟩
      · rw [hyFloat]
        exact within_one a
      · rw [hrFloat]
        exact within_one c
      · intro hle
        rw [hyFloat, hrFloat]
        exact_mod_cast (by simpa [number] using hle : a ≤ c)
  | cons d rs =>
      obtain rfl : rs = [] := List.eq_nil_of_length_eq_zero (by simpa using hlen)
      have hrFloat : rFloat [c, d] [a] = double (c * base + d) := absFloat_two hclt.le
      have hscaleR := @scale_cons_cons c d [] (by simp)
      refine ⟨a, c * base + d, ha, ?_, ?_,
        ⟨0, hscaleY.1, hscaleY.2, hscaleR.1, hscaleR.2⟩, ?_⟩
      · rw [hyFloat]
        exact within_one a
      · rw [hrFloat]
        exact (within_two c d).mono (Nat.cast_nonneg _) (by norm_num [slack])
      · intro _
        have hcast : (a : ℚ) ≤ base := by exact_mod_cast halt.le
        rw [hyFloat, hrFloat]
        exact hcast.trans (base_le_double hc)

theorem leading_two {a b : Nat} {ys : List Nat} (hy : Canonical ⟨yn, a :: b :: ys⟩)
    (hr : Canonical ⟨rn, r⟩) (hlow : ys.length + 2 ≤ r.length)
    (hhigh : r.length ≤ ys.length + 3) : ∃ Y R, Leading r (a :: b :: ys) Y R := by
  obtain ⟨_, _, hcons, ha, halt, hbs⟩ := hy.divisor (by simp)
  obtain ⟨rfl, rfl⟩ := List.cons.inj hcons
  have hblt : b < base := hbs b List.mem_cons_self
  have hys : ∀ d ∈ ys, d < base := fun d hd => hbs d (List.mem_cons_of_mem b hd)
  have hrne : r ≠ [0] := by
    rintro rfl
    simp at hlow
  obtain ⟨c, rs, rfl, hc, hclt, hrs⟩ := hr.divisor hrne
  have hyFloat : yFloat (a :: b :: ys) = double (a * base + b) := by
    have hn : (if 2 < (a :: b :: ys).length then (2 : Int) else (a :: b :: ys).length) = 2 := by
      simp only [List.length_cons]
      split_ifs <;> omega
    unfold yFloat
    rw [hn]
    exact absFloat_two halt.le
  have hyWithin : Within slack (yFloat (a :: b :: ys)) ((a * base + b : Nat) : ℚ) := by
    rw [hyFloat]
    exact (within_two a b).mono (Nat.cast_nonneg _) (by norm_num [slack])
  have hscaleY := scale_cons_cons (a := a) (b := b) hys
  have hYpos : 0 < a * base + b := Nat.add_pos_left (Nat.mul_pos ha (by decide)) b
  cases rs with
  | nil => simp at hlow
  | cons d rs =>
      have hdlt : d < base := hrs d List.mem_cons_self
      rcases Nat.lt_or_ge ys.length rs.length with hlonger | hequal
      · -- one digit more than the divisor
        cases rs with
        | nil => simp at hlonger
        | cons e rs =>
            have hlen : rs.length = ys.length := by
              simp only [List.length_cons] at hlonger hhigh
              omega
            have hrs' : ∀ f ∈ rs, f < base := fun f hf =>
              hrs f (List.mem_cons_of_mem d (List.mem_cons_of_mem e hf))
            have hrFloat : rFloat (c :: d :: e :: rs) (a :: b :: ys) =
                double (double (double (c * base + d) * base) + e) := by
              have hn : (if 2 < (a :: b :: ys).length then
                  ((c :: d :: e :: rs).length : Int) + 2 - (a :: b :: ys).length
                  else (c :: d :: e :: rs).length) = 3 := by
                simp only [List.length_cons]
                split_ifs <;> omega
              unfold rFloat
              rw [hn]
              exact absFloat_three hclt.le
            have hscaleR := scale_cons_cons_cons (a := c) (b := d) (c := e) hrs'
            rw [hlen] at hscaleR
            refine ⟨a * base + b, (c * base + d) * base + e, hYpos, hyWithin, ?_,
              ⟨ys.length, hscaleY.1, hscaleY.2, hscaleR.1, hscaleR.2⟩, ?_⟩
            · rw [hrFloat]
              exact within_three c d e
            · intro _
              rw [hyFloat, hrFloat]
              exact (double_le_square halt hblt).trans (square_le_double hc)
      · have hlen : rs.length = ys.length := by
          simp only [List.length_cons] at hlow
          omega
        have hrs' : ∀ f ∈ rs, f < base := fun f hf => hrs f (List.mem_cons_of_mem d hf)
        have hrFloat : rFloat (c :: d :: rs) (a :: b :: ys) = double (c * base + d) := by
          have hn : (if 2 < (a :: b :: ys).length then
              ((c :: d :: rs).length : Int) + 2 - (a :: b :: ys).length
              else (c :: d :: rs).length) = 2 := by
            simp only [List.length_cons]
            split_ifs <;> omega
          unfold rFloat
          rw [hn]
          exact absFloat_two hclt.le
        have hscaleR := scale_cons_cons (a := c) (b := d) hrs'
        rw [hlen] at hscaleR
        refine ⟨a * base + b, c * base + d, hYpos, hyWithin, ?_,
          ⟨ys.length, hscaleY.1, hscaleY.2, hscaleR.1, hscaleR.2⟩, ?_⟩
        · rw [hrFloat]
          exact (within_two c d).mono (Nat.cast_nonneg _) (by norm_num [slack])
        · intro hle
          have htops : a * base + b < c * base + d + 1 :=
            Nat.lt_of_mul_lt_mul_right
              (lt_of_le_of_lt hscaleY.1 (lt_of_le_of_lt hle hscaleR.2))
          have hcast : (a : ℚ) * base + b ≤ c * base + d := by
            exact_mod_cast Nat.lt_succ_iff.mp htops
          rw [hyFloat, hrFloat]
          exact double_mono (by positivity) hcast

variable {Y R q : Nat} {yF rF : ℚ}

/-- The integer part of the estimate is not below a digit that the leading digits
allow, and an `int` holds it. -/
theorem floor_estimate (hY : 0 < Y) (hyW : Within slack yF Y) (hrW : Within slack rF R)
    (hq : q * Y ≤ R) (hR : R ≤ 2 * base * Y) (hlt : yF < rF) :
    (q : ℤ) ≤ ⌊double (double (rF / yF) + 1)⌋ ∧
      ⌊double (double (rF / yF) + 1)⌋ < 2 ^ 31 := by
  have hYcast : (0 : ℚ) < Y := by exact_mod_cast hY
  have hRcast : (R : ℚ) ≤ 2000000000 * Y := by
    rw [show base = 1000000000 from rfl] at hR
    exact_mod_cast hR
  have hqcast : (q : ℚ) * Y ≤ R := by exact_mod_cast hq
  have hqle : (q : ℚ) ≤ 2000000000 := le_of_mul_le_mul_right (hqcast.trans hRcast) hYcast
  have hqpos : (0 : ℚ) ≤ q := Nat.cast_nonneg q
  obtain ⟨hyLow, hyHigh⟩ := hyW
  obtain ⟨hrLow, hrHigh⟩ := hrW
  unfold slack at *
  have hyPos : 0 < yF := lt_of_lt_of_le (mul_pos (by norm_num) hYcast) hyLow
  have hhalf : 0 ≤ (1 : ℚ) / 2 ^ 49 * Y := by positivity
  -- the quotient of the floats lies between these bounds
  have hquotLow : (q : ℚ) - 1 / 4 ≤ rF / yF := by
    rw [le_div_iff₀ hyPos]
    rcases Nat.eq_zero_or_pos q with rfl | hqone
    · have hrPos : 0 < rF := hyPos.trans hlt
      push_cast
      linarith
    · have hone : (1 : ℚ) ≤ q := by exact_mod_cast hqone
      have hqY : (q : ℚ) * Y * (1 / 2 ^ 49) ≤ 2000000000 * Y * (1 / 2 ^ 49) := by gcongr
      calc ((q : ℚ) - 1 / 4) * yF ≤ (q - 1 / 4) * ((1 + 1 / 2 ^ 49) * Y) := by
            gcongr
            linarith
        _ ≤ (1 - 1 / 2 ^ 49) * (q * Y) := by linarith
        _ ≤ (1 - 1 / 2 ^ 49) * R := mul_le_mul_of_nonneg_left hqcast (by norm_num)
        _ ≤ rF := hrLow
  have hquotHigh : rF / yF ≤ 2000000001 := by
    rw [div_le_iff₀ hyPos]
    linarith
  have hquotPos : 0 ≤ rF / yF := (div_pos (hyPos.trans hlt) hyPos).le
  have hfirst := abs_le.mp (Rounding.round_error 52 hquotPos)
  have hnonneg : 0 ≤ double (rF / yF) := Rounding.round_nonneg hquotPos
  have hsecond := abs_le.mp (Rounding.round_error 52 (add_nonneg hnonneg zero_le_one))
  unfold double at *
  constructor
  · rw [Int.le_floor, Int.cast_natCast]
    linarith [hfirst.1, hsecond.1]
  · rw [Int.floor_lt]
    push_cast
    linarith [hfirst.2, hsecond.2]

/-- Without an estimate the remainder is too small; the estimate is not below the
digit, and an `int` holds it. -/
theorem estimate_spec (h : Leading r y Y R) (hlt : number r < number y * base) :
    (estimate (yFloat y) (rFloat r y) = none → number r < number y) ∧
      ∀ q, estimate (yFloat y) (rFloat r y) = some q →
        number r / number y ≤ q ∧ q < 2 ^ 31 := by
  obtain ⟨k, hyLow, hyHigh, hrLow, hrHigh⟩ := h.scale
  have hscale : 0 < base ^ k := Nat.pow_pos (by decide)
  have hdigit : number r / number y * Y ≤ R := by
    have hchain : number r / number y * Y * base ^ k < (R + 1) * base ^ k := by
      calc number r / number y * Y * base ^ k
          = number r / number y * (Y * base ^ k) := Nat.mul_assoc _ _ _
        _ ≤ number r / number y * number y := Nat.mul_le_mul_left _ hyLow
        _ ≤ number r := Nat.div_mul_le_self _ _
        _ < (R + 1) * base ^ k := hrHigh
    exact Nat.lt_succ_iff.mp (Nat.lt_of_mul_lt_mul_right hchain)
  have hlimit : R ≤ 2 * base * Y := by
    have hchain : R * base ^ k < (Y + 1) * base * base ^ k := by
      calc R * base ^ k ≤ number r := hrLow
        _ < number y * base := hlt
        _ ≤ (Y + 1) * base ^ k * base := Nat.mul_le_mul_right _ hyHigh.le
        _ = (Y + 1) * base * base ^ k := by ring
    have hlow := Nat.lt_of_mul_lt_mul_right hchain
    have hpos := h.pos
    rw [show base = 1000000000 from rfl] at *
    omega
  unfold estimate
  by_cases hless : rFloat r y < yFloat y
  · rw [if_pos hless]
    refine ⟨fun _ => ?_, by simp⟩
    by_contra hge
    exact absurd (h.order (Nat.le_of_not_lt hge)) (not_le.mpr hless)
  · rw [if_neg hless]
    refine ⟨fun hnone => by split at hnone <;> simp at hnone, fun q hq => ?_⟩
    by_cases hsame : yFloat y = rFloat r y
    · rw [if_pos hsame, Option.some.injEq] at hq
      have hR : R < 2 * Y := by
        have hpos : (0 : ℚ) < Y := by exact_mod_cast h.pos
        have hyW := h.yWithin.2
        have hrW := h.rWithin.1
        have hcast : (R : ℚ) < 2 * Y := by
          unfold slack at *
          linarith
        exact_mod_cast hcast
      refine ⟨?_, by omega⟩
      rw [← hq]
      exact Nat.lt_succ_iff.mp (Nat.lt_of_mul_lt_mul_right (lt_of_le_of_lt hdigit hR))
    · rw [if_neg hsame, Option.some.injEq] at hq
      obtain ⟨hlow, hhigh⟩ := floor_estimate h.pos h.yWithin h.rWithin hdigit hlimit
        (lt_of_le_of_ne (not_lt.mp hless) hsame)
      generalize number r / number y = digit at hlow
      rw [int32_eq (by omega) hhigh] at hq
      omega

end Estimate

section Product

variable {q carry : Nat} {ys r y : List Nat} {rn yn : Bool}

/-- One round of the loop at `PRODUCT`. -/
theorem productDigits_cons {d : Nat} (hq : q < 2 ^ 31) (hd : d < base) (hcarry : carry ≤ q) :
    productDigits q carry (d :: ys) =
        ((d * q + carry) % base :: (productDigits q ((d * q + carry) / base) ys).1,
          (productDigits q ((d * q + carry) / base) ys).2) ∧
      (d * q + carry) / base ≤ q := by
  have hbase : base = 1000000000 := rfl
  have hmul : d * q + q ≤ base * q := by
    calc d * q + q = (d + 1) * q := by ring
      _ ≤ base * q := Nat.mul_le_mul_right q hd
  rw [hbase] at hmul
  have hle : (d * q + carry) / base ≤ q :=
    (Nat.div_le_iff_le_mul_add_pred (by decide)).mpr (by rw [hbase]; omega)
  have hprod : int64 ((d : Int) * q) = ((d * q : Nat) : Int) := by
    rw [← Int.natCast_mul]
    exact int64_eq (by omega) (by omega)
  have hdigit : int64 (((d * q : Nat) : Int) + carry) = ((d * q + carry : Nat) : Int) :=
    (int64_eq (by omega) (by omega)).trans (by omega)
  refine ⟨?_, hle⟩
  rw [productDigits]
  simp only [hprod, hdigit, digitOf_nat, carryOf_nat]
  generalize d * q + carry = n at hle
  by_cases hlarge : base ≤ n
  · have hcast : (base : Int) ≤ n := by exact_mod_cast hlarge
    have hint : (int32 ((n / base : Nat) : Int)).toNat = n / base := by
      generalize n / base = m at hle
      rw [int32_eq (by omega) (by omega), Int.toNat_natCast]
    rw [if_pos hcast]
    simp only [hint]
  · have hcast : ¬ (base : Int) ≤ n := by exact_mod_cast hlarge
    have hlt := Nat.not_le.mp hlarge
    rw [if_neg hcast, Nat.mod_eq_of_lt hlt, Nat.div_eq_of_lt hlt, Int.toNat_natCast]

theorem productDigits_spec (hq : q < 2 ^ 31) (hcarry : carry ≤ q)
    (hy : ∀ d ∈ ys, d < base) :
    (productDigits q carry ys).1.length = ys.length ∧
      (∀ d ∈ (productDigits q carry ys).1, d < base) ∧
      Nat.ofDigits base (productDigits q carry ys).1 +
          (productDigits q carry ys).2 * base ^ ys.length =
        q * Nat.ofDigits base ys + carry := by
  induction ys generalizing carry with
  | nil => simp [productDigits]
  | cons d ys ih =>
      obtain ⟨hstep, hcarry'⟩ :=
        @productDigits_cons _ _ ys _ hq (hy d List.mem_cons_self) hcarry
      obtain ⟨hlength, hall, hvalue⟩ :=
        ih hcarry' fun e he => hy e (List.mem_cons_of_mem d he)
      rw [hstep]
      refine ⟨by simp [hlength], fun e he => ?_, ?_⟩
      · rcases List.mem_cons.mp he with rfl | he
        · exact Nat.mod_lt _ (by decide)
        · exact hall e he
      · have hdiv := Nat.div_add_mod (d * q + carry) base
        generalize (d * q + carry) / base = m at *
        generalize (d * q + carry) % base = n at *
        rw [Nat.ofDigits_cons, Nat.ofDigits_cons, List.length_cons, Nat.pow_succ]
        calc n + base * Nat.ofDigits base (productDigits q m ys).1 +
              (productDigits q m ys).2 * (base ^ ys.length * base)
            = n + base * (Nat.ofDigits base (productDigits q m ys).1 +
                (productDigits q m ys).2 * base ^ ys.length) := by ring
          _ = (base * m + n) + base * (q * Nat.ofDigits base ys) := by rw [hvalue]; ring
          _ = q * (d + base * Nat.ofDigits base ys) + carry := by rw [hdiv]; ring

theorem product_spec (hq : q < 2 ^ 31) (hy : ∀ d ∈ y, d < base) :
    ∃ ps carry, ps.length = y.length ∧ (∀ d ∈ ps, d < base) ∧
      product y q = (if carry ≠ 0 then carry :: ps else ps) ∧
      carry * base ^ y.length + number ps = q * number y := by
  obtain ⟨hlength, hall, hvalue⟩ := @productDigits_spec _ 0 y.reverse hq
    (Nat.zero_le q) fun d hd => hy d (List.mem_reverse.mp hd)
  refine ⟨(productDigits q 0 y.reverse).1.reverse, (productDigits q 0 y.reverse).2,
    by simpa using hlength, fun d hd => hall d (List.mem_reverse.mp hd), rfl, ?_⟩
  rw [List.length_reverse, Nat.add_zero] at hvalue
  rw [number, List.reverse_reverse, Nat.add_comm]
  exact hvalue

theorem number_product (hq : q < 2 ^ 31) (hy : ∀ d ∈ y, d < base) :
    number (product y q) = q * number y := by
  obtain ⟨ps, carry, hlength, -, hproduct, hvalue⟩ := product_spec hq hy
  rw [hproduct, ← hvalue]
  by_cases hcarry : carry = 0
  · rw [if_neg (not_not.mpr hcarry), hcarry, Nat.zero_mul, Nat.zero_add]
  · rw [if_pos hcarry, number_cons, hlength]

theorem length_product (hq : q < 2 ^ 31) (hy : ∀ d ∈ y, d < base) :
    (product y q).length ≤ y.length + 1 := by
  obtain ⟨ps, carry, hlength, -, hproduct, -⟩ := product_spec hq hy
  rw [hproduct]
  split_ifs
  · simp [hlength]
  · exact Nat.le_succ_of_le hlength.le

theorem magnitude_number (negative : Bool) (ds : List Nat) :
    magnitude ⟨negative, ds⟩ = number ds := magnitude_eq _

theorem base_pow_le (hy : Canonical ⟨yn, y⟩) (hne : y ≠ [0]) :
    base ^ (y.length - 1) ≤ number y := by
  have hle := hy.magnitude_le hne
  rwa [magnitude_number] at hle

theorem cmpAbs_neg_iff {rn yn : Bool} (hr : Canonical ⟨rn, r⟩) (hy : Canonical ⟨yn, y⟩) :
    cmpAbsBigint ⟨rn, r⟩ ⟨yn, y⟩ < 0 ↔ number r < number y := by
  rw [← magnitude_number rn, ← magnitude_number yn]
  rcases cmpAbs_spec hr hy with ⟨hcmp, hlt⟩ | ⟨hcmp, heq⟩ | ⟨hcmp, hlt⟩
  · rw [hcmp]
    omega
  · rw [hcmp, magnitude_digits heq]
    omega
  · rw [hcmp]
    omega

/-- The product is compared as a number, even where its last carry is no digit. -/
theorem cmpAbs_product (hq : q < 2 ^ 31) (hy : Canonical ⟨yn, y⟩) (hne : y ≠ [0])
    (hr : Canonical ⟨false, r⟩) (hlow : y.length ≤ r.length)
    (hhigh : r.length ≤ y.length + 1) :
    cmpAbsBigint ⟨false, r⟩ ⟨false, product y q⟩ < 0 ↔ number r < q * number y := by
  have hylt : ∀ d ∈ y, d < base := hy.lt_base
  have hrdigits : ∀ d ∈ r, d < base := hr.lt_base
  have hnumber := number_product hq hylt
  obtain ⟨ps, carry, hlength, hps, hproduct, hvalue⟩ := product_spec hq hylt
  have hrlt := number_lt hrdigits
  have hcompare : ∀ p : List Nat, Canonical ⟨false, p⟩ → number p = q * number y →
      (cmpAbsBigint ⟨false, r⟩ ⟨false, p⟩ < 0 ↔ number r < q * number y) := by
    intro p hp hpvalue
    rw [cmpAbs_neg_iff hr hp, hpvalue]
  rcases Nat.eq_zero_or_pos q with rfl | hqpos
  · -- no number is below zero
    rw [Nat.zero_mul] at hvalue ⊢
    have hpow : 0 < base ^ y.length := Nat.pow_pos (by decide)
    have hcarry : carry = 0 := by
      by_contra hcarry
      have := Nat.mul_pos (Nat.pos_of_ne_zero hcarry) hpow
      omega
    rw [hproduct, if_neg (not_not.mpr hcarry)]
    have hzero : Nat.ofDigits base ps.reverse = 0 := by
      rw [hcarry, Nat.zero_mul, Nat.zero_add] at hvalue
      exact hvalue
    unfold cmpAbsBigint
    simp only [hlength]
    by_cases hsame : r.length = y.length
    · rw [if_pos hsame]
      rcases cmpDigits_spec (hsame.trans hlength.symm) hrdigits hps with
        ⟨hcmp, -⟩ | ⟨hcmp, -⟩ | ⟨hcmp, hlt⟩
      · rw [hcmp]
        omega
      · rw [hcmp]
        omega
      · exact absurd hlt (by rw [hzero]; exact Nat.not_lt_zero _)
    · rw [if_neg hsame, if_pos (by omega)]
      omega
  · have hle : number y ≤ q * number y := Nat.le_mul_of_pos_left _ hqpos
    have hpow := base_pow_le hy hne
    by_cases hcarry : carry = 0
    · rw [if_neg (not_not.mpr hcarry)] at hproduct
      rw [hproduct] at hnumber ⊢
      refine hcompare ps (.of_le ?_ hps (.inr ?_)) hnumber
      · rintro rfl
        exact hy.ne_nil (List.eq_nil_of_length_eq_zero hlength.symm)
      · rw [hlength]
        exact (hpow.trans hle).trans hnumber.ge
    · rw [if_pos hcarry] at hproduct
      rw [hproduct] at hnumber ⊢
      by_cases hdigit : carry < base
      · refine hcompare _ ⟨List.cons_ne_nil _ _, fun d hd => ?_, .inr ?_⟩ hnumber
        · rcases List.mem_cons.mp hd with rfl | hd
          · exact hdigit
          · exact hps d hd
        · simpa using hcarry
      · -- the first number of the product is above every digit
        have hmul : base ^ (y.length + 1) ≤ carry * base ^ y.length := by
          rw [Nat.pow_succ, Nat.mul_comm]
          exact Nat.mul_le_mul_right _ (Nat.le_of_not_lt hdigit)
        have hless : number r < q * number y := by
          have hpow' : base ^ r.length ≤ base ^ (y.length + 1) :=
            Nat.pow_le_pow_right (by decide) hhigh
          omega
        refine iff_of_true ?_ hless
        unfold cmpAbsBigint
        simp only [List.length_cons, hlength]
        by_cases hsame : r.length = y.length + 1
        · rw [if_pos hsame]
          cases r with
          | nil => simp at hsame
          | cons d ds =>
              have hd := hrdigits d List.mem_cons_self
              rw [cmpDigits, if_neg (by omega), if_pos (by omega)]
              decide
        · rw [if_neg hsame, if_neg (by omega)]
          decide

/-- Counting down from an estimate that is not too low ends at the digit. -/
theorem correct_spec (hq : q < 2 ^ 31) (hy : Canonical ⟨yn, y⟩) (hne : y ≠ [0])
    (hr : Canonical ⟨false, r⟩) (hlow : y.length ≤ r.length)
    (hhigh : r.length ≤ y.length + 1) (hdigit : number r / number y ≤ q) :
    ∃ highest ≤ y.length + 1, correct r y q = .value
      ⟨number r / number y, product y (number r / number y), highest⟩ := by
  have hylt : ∀ d ∈ y, d < base := hy.lt_base
  have hpos : 0 < number y :=
    lt_of_lt_of_le (Nat.pow_pos (by decide)) (base_pow_le hy hne)
  induction q with
  | zero =>
      have hcmp := cmpAbs_product hq hy hne hr hlow hhigh
      rw [Nat.zero_mul] at hcmp
      refine ⟨_, length_product hq hylt, ?_⟩
      rw [correct, if_neg (fun hless => Nat.not_lt_zero _ (hcmp.mp hless)),
        Nat.le_zero.mp hdigit]
  | succ q ih =>
      have hcmp := cmpAbs_product hq hy hne hr hlow hhigh
      have hlength := length_product hq hylt
      by_cases hless : number r < (q + 1) * number y
      · obtain ⟨highest, hle, hrest⟩ :=
          ih (by omega) (Nat.lt_succ_iff.mp ((Nat.div_lt_iff_lt_mul hpos).mpr hless))
        refine ⟨max (product y (q + 1)).length highest, max_le hlength hle, ?_⟩
        rw [correct, if_pos (hcmp.mpr hless), hrest]
        rfl
      · have hequal : number r / number y = q + 1 :=
          Nat.le_antisymm hdigit ((Nat.le_div_iff_mul_le hpos).mpr (Nat.le_of_not_lt hless))
        refine ⟨_, hlength, ?_⟩
        rw [correct, if_neg (hcmp.not.mpr hless), hequal]

/-- A product that is not above the remainder has digits only, and no more of them. -/
theorem product_fits (hq : q < 2 ^ 31) (hy : ∀ d ∈ y, d < base) (hr : ∀ d ∈ r, d < base)
    (hlow : y.length ≤ r.length) (hhigh : r.length ≤ y.length + 1)
    (hle : q * number y ≤ number r) :
    (∀ d ∈ product y q, d < base) ∧ (product y q).length ≤ r.length := by
  obtain ⟨ps, carry, hlength, hps, hproduct, hvalue⟩ := product_spec hq hy
  have hrlt := number_lt hr
  rw [hproduct]
  by_cases hcarry : carry = 0
  · rw [if_neg (not_not.mpr hcarry)]
    exact ⟨hps, hlength.trans_le hlow⟩
  · rw [if_pos hcarry]
    have hone : base ^ y.length ≤ carry * base ^ y.length :=
      Nat.le_mul_of_pos_left _ (Nat.pos_of_ne_zero hcarry)
    have hlonger : y.length < r.length :=
      (Nat.pow_lt_pow_iff_right one_lt_base).mp (by omega)
    have hlen : r.length = y.length + 1 := Nat.le_antisymm hhigh hlonger
    have hdigit : carry < base := by
      rw [hlen, Nat.pow_succ, Nat.mul_comm] at hrlt
      exact Nat.lt_of_mul_lt_mul_right (a := base ^ y.length) (by omega)
    refine ⟨fun d hd => ?_, by simp [hlength, hlen]⟩
    rcases List.mem_cons.mp hd with rfl | hd
    · exact hdigit
    · exact hps d hd

end Product

section Round

variable {r y done : List Nat} {x : Nat} {yn last : Bool} {state : DivState}

/-- The remainder kept between two rounds is empty or not zero; the last one is
canonical. -/
def KeptRemainder (last : Bool) (r : List Nat) : Prop :=
  if last then Canonical ⟨false, r⟩ else r = [] ∨ Canonical ⟨false, r⟩ ∧ r ≠ [0]

theorem trimZeros_spec (hne : r ≠ []) (hr : ∀ d ∈ r, d < base) :
    KeptRemainder last (trimZeros last r) ∧ number (trimZeros last r) = number r := by
  obtain ⟨hcanonical, hvalue⟩ := @trim_canonical _ false hne hr
  rw [magnitude_number] at hvalue
  have hlead := hcanonical.leading
  unfold KeptRemainder trimZeros
  simp only at hlead
  cases last with
  | true => exact ⟨by simpa using hcanonical, by simpa using hvalue⟩
  | false =>
      rcases hlead with hzero | hhead
      · rw [hzero] at hvalue
        simp only [hzero, List.head?_cons, and_self, if_true]
        exact ⟨by simp, hvalue⟩
      · simp only [hhead, false_and, if_false]
        refine ⟨.inr ⟨hcanonical, ?_⟩, hvalue⟩
        rintro hzero
        simp [hzero] at hhead

theorem KeptRemainder.append (hr : KeptRemainder false r) (hx : x < base) :
    Canonical ⟨false, r ++ [x]⟩ := by
  unfold KeptRemainder at hr
  rw [if_neg Bool.false_ne_true] at hr
  rcases hr with rfl | ⟨hr, hne⟩
  · refine ⟨List.cons_ne_nil _ _, by simpa using hx, ?_⟩
    by_cases hzero : x = 0
    · exact .inl (by simp [hzero])
    · exact .inr (by simpa using hzero)
  · obtain ⟨a, ds, rfl, ha, halt, hds⟩ := hr.divisor hne
    refine ⟨by simp, fun d hd => ?_, .inr (by simpa using Nat.ne_of_gt ha)⟩
    rcases List.mem_append.mp hd with hd | hd
    · exact hr.lt_base d hd
    · rwa [List.mem_singleton.mp hd]

/-- Long division after the digits `done`. -/
structure DivInvariant (y done : List Nat) (last : Bool) (state : DivState) : Prop where
  value : number done = number state.q * number y + number state.r
  small : number state.r < number y
  kept : KeptRemainder last state.r
  digits : ∀ d ∈ state.q, d < base
  leading : state.q.head? ≠ some 0
  start : state.q = [] → state.r = done
  rExtent : state.extent.r ≤ done.length
  qExtent : state.extent.q = state.q.length
  pExtent : state.extent.p ≤ y.length + 1
  rLength : state.r.length ≤ done.length

theorem length_le_of_number (hy : ∀ d ∈ y, d < base) (hr : Canonical ⟨false, r⟩)
    (hlt : number r < number y * base) : r.length ≤ y.length + 1 := by
  by_cases hzero : r = [0]
  · simp [hzero]
  · have hylt := number_lt hy
    have hpow : base ^ (r.length - 1) < base ^ (y.length + 1) := by
      calc base ^ (r.length - 1) ≤ number r := base_pow_le hr hzero
        _ < number y * base := hlt
        _ ≤ base ^ y.length * base := Nat.mul_le_mul_right _ hylt.le
        _ = base ^ (y.length + 1) := (Nat.pow_succ ..).symm
    have := (Nat.pow_lt_pow_iff_right one_lt_base).mp hpow
    omega

theorem rFloat_zero_lt (hy : Canonical ⟨yn, y⟩) (hne : y ≠ [0]) :
    rFloat [0] y < yFloat y := by
  obtain ⟨a, ys, rfl, ha, -⟩ := hy.divisor hne
  cases ys with
  | nil =>
      have hyFloat : yFloat [a] = a := absFloat_one (by simp)
      have hrFloat : rFloat [0] [a] = ((0 : Nat) : ℚ) := absFloat_one (by simp)
      rw [hyFloat, hrFloat]
      exact_mod_cast ha
  | cons b ys =>
      refine @rFloat_lt_of_length _ _ _ false hy hne ?_ (by simp)
      exact ⟨by simp, by decide, .inl rfl⟩

theorem leading_exists (hy : Canonical ⟨yn, y⟩) (hne : y ≠ [0])
    (hr : Canonical ⟨false, r⟩) (hzero : r ≠ [0]) (hlow : y.length ≤ r.length)
    (hhigh : r.length ≤ y.length + 1) : ∃ Y R, Leading r y Y R := by
  obtain ⟨a, ys, rfl, ha, halt, hys⟩ := hy.divisor hne
  cases ys with
  | nil => exact leading_one ha halt hr hhigh hzero
  | cons b ys => exact leading_two hy hr hlow hhigh

/-- The digit of a round is the quotient's, or the remainder is too small for one. -/
theorem round_digit (hy : Canonical ⟨yn, y⟩) (hne : y ≠ [0]) (hr : Canonical ⟨false, r⟩)
    (hlt : number r < number y * base) :
    (estimate (yFloat y) (rFloat r y) = none ∧ number r < number y) ∨
    ∃ q highest, estimate (yFloat y) (rFloat r y) = some q ∧ highest ≤ y.length + 1 ∧
      y.length ≤ r.length ∧ correct r y q = .value
        ⟨number r / number y, product y (number r / number y), highest⟩ := by
  have hylt : ∀ d ∈ y, d < base := hy.lt_base
  have hhigh := length_le_of_number hylt hr hlt
  have hnone : rFloat r y < yFloat y → estimate (yFloat y) (rFloat r y) = none := by
    intro hless
    exact if_pos hless
  by_cases hzero : r = [0]
  · refine .inl ⟨hnone (by rw [hzero]; exact rFloat_zero_lt hy hne), ?_⟩
    rw [hzero]
    exact lt_of_lt_of_le (Nat.pow_pos (by decide)) (base_pow_le hy hne)
  · by_cases hlow : y.length ≤ r.length
    · obtain ⟨Y, R, hleading⟩ := leading_exists hy hne hr hzero hlow hhigh
      obtain ⟨hsmall, hestimate⟩ := estimate_spec hleading hlt
      cases hq : estimate (yFloat y) (rFloat r y) with
      | none => exact .inl ⟨rfl, hsmall hq⟩
      | some q =>
          obtain ⟨hdigit, hint⟩ := hestimate q hq
          obtain ⟨highest, hle, hcorrect⟩ := correct_spec hint hy hne hr hlow hhigh hdigit
          exact .inr ⟨q, highest, rfl, hle, hlow, hcorrect⟩
    · refine .inl ⟨hnone (rFloat_lt_of_length hy hne hr (Nat.not_le.mp hlow)), ?_⟩
      have hless := hr.magnitude_lt_of_length hy (Nat.not_le.mp hlow)
      rwa [magnitude_number, magnitude_number] at hless

/-- What a round leaves of the remainder. -/
theorem round_subtract (hy : Canonical ⟨yn, y⟩) (hne : y ≠ [0])
    (hr : Canonical ⟨false, r⟩) (hlt : number r < number y * base)
    (hlow : y.length ≤ r.length) :
    let ds := (subDigits 0 r.reverse
      (product y (number r / number y)).reverse).reverse
    (∀ d ∈ ds, d < base) ∧ ds.length = r.length ∧ number ds = number r % number y := by
  have hylt : ∀ d ∈ y, d < base := hy.lt_base
  have hrdigits : ∀ d ∈ r, d < base := hr.lt_base
  have hhigh := length_le_of_number hylt hr hlt
  have hpos : 0 < number y :=
    lt_of_lt_of_le (Nat.pow_pos (by decide)) (base_pow_le hy hne)
  have hdigit : number r / number y < 2 ^ 31 := by
    have hbase := (Nat.div_lt_iff_lt_mul hpos).mpr (by rwa [Nat.mul_comm] at hlt)
    rw [show base = 1000000000 from rfl] at hbase
    omega
  have hle : number r / number y * number y ≤ number r := Nat.div_mul_le_self _ _
  obtain ⟨hp, hlength⟩ := product_fits hdigit hylt hrdigits hlow hhigh hle
  have hnumber := number_product hdigit hylt
  have hlen : (product y (number r / number y)).reverse.length ≤ r.reverse.length := by
    simpa using hlength
  have hr' : ∀ d ∈ r.reverse, d < base := fun d hd => hrdigits d (List.mem_reverse.mp hd)
  have hp' : ∀ d ∈ (product y (number r / number y)).reverse, d < base :=
    fun d hd => hp d (List.mem_reverse.mp hd)
  obtain ⟨-, hall, hlength'⟩ := @subDigits_spec _ _ 0 hlen hr' hp' (Nat.zero_le 1)
  have hvalue := subDigits_eq hlen hr' hp' (by rw [← number, ← number, hnumber]; exact hle)
  refine ⟨fun d hd => hall d (List.mem_reverse.mp hd), by simpa using hlength', ?_⟩
  rw [number, List.reverse_reverse, hvalue, ← number, ← number, hnumber,
    Nat.mod_eq_sub_div_mul]

theorem trimZeros_length (last : Bool) (r : List Nat) :
    (trimZeros last r).length ≤ r.length := by
  have htrim : (trim r).length ≤ r.length := by
    fun_induction trim r with
    | case1 d ds ih => exact Nat.le_succ_of_le ih
    | case2 ds => exact le_rfl
  unfold trimZeros
  split_ifs
  · exact Nat.zero_le _
  · exact htrim

/-- A round that splits the remainder into a digit times the divisor and a rest. -/
theorem DivInvariant.next {ds : List Nat} {d : Nat} {extent : Extent}
    (h : DivInvariant y done false state) (hne : ds ≠ []) (hds : ∀ e ∈ ds, e < base)
    (hlength : ds.length ≤ state.r.length + 1) (hsmall : number ds < number y)
    (hd : d < base) (hlead : state.q = [] → d ≠ 0)
    (hvalue : number (state.r ++ [x]) = d * number y + number ds)
    (hr : extent.r ≤ done.length + 1) (hq : extent.q = state.q.length + 1)
    (hp : extent.p ≤ y.length + 1) :
    DivInvariant y (done ++ [x]) last ⟨trimZeros last ds, state.q ++ [d], extent⟩ := by
  obtain ⟨hkept, hnumber⟩ := @trimZeros_spec _ last hne hds
  refine ⟨?_, hnumber.trans_lt hsmall, hkept, fun e he => ?_, ?_, by simp, by simpa using hr,
    by simpa using hq, hp, ?_⟩
  · simp only [hnumber]
    rw [number_append] at hvalue ⊢
    rw [number_append, h.value]
    calc (number state.q * number y + number state.r) * base + x
        = number state.q * base * number y + (number state.r * base + x) := by ring
      _ = (number state.q * base + d) * number y + number ds := by rw [hvalue]; ring
  · rcases List.mem_append.mp he with he | he
    · exact h.digits e he
    · rwa [List.mem_singleton.mp he]
  · cases hcase : state.q with
    | nil => simpa using hlead hcase
    | cons e es =>
        have hleading := h.leading
        rw [hcase] at hleading
        simpa using hleading
  · have htrim := trimZeros_length last ds
    have hrLength := h.rLength
    simp only [List.length_append, List.length_singleton]
    omega

/-- A round keeps the invariant. -/
theorem divRound_spec (hy : Canonical ⟨yn, y⟩) (hne : y ≠ [0])
    (h : DivInvariant y done false state) (hx : x < base)
    (hhead : (done ++ [x]).head? ≠ some 0)
    (hlast : last = true → number y ≤ number (done ++ [x])) :
    ∃ next, divRound y last state x = .value next ∧
      DivInvariant y (done ++ [x]) last next := by
  have hr := h.kept.append hx
  have hpos : 0 < number y :=
    lt_of_lt_of_le (Nat.pow_pos (by decide)) (base_pow_le hy hne)
  have hlt : number (state.r ++ [x]) < number y * base := by
    have hstep := Nat.mul_le_mul_right base h.small
    rw [number_append]
    rw [Nat.succ_mul] at hstep
    omega
  have hrLength := h.rLength
  have hrExtent : max state.extent.r (state.r ++ [x]).length ≤ done.length + 1 := by
    have hrExtent := h.rExtent
    simp only [List.length_append, List.length_singleton]
    omega
  have hcmp := cmpAbs_neg_iff hr (hy.withSign false)
  unfold divRound
  simp only
  by_cases hskip : state.q = [] ∧ cmpAbsBigint ⟨false, state.r ++ [x]⟩ ⟨false, y⟩ < 0
  · -- no digit yet, and the remainder is all there is of the dividend
    rw [if_pos hskip]
    obtain ⟨hempty, hless⟩ := hskip
    have hall : state.r ++ [x] = done ++ [x] := by rw [h.start hempty]
    have hsmall : number (state.r ++ [x]) < number y := hcmp.mp hless
    refine ⟨_, rfl, ?_, hsmall, ?_, h.digits, h.leading, fun _ => hall, by simpa using hrExtent,
      h.qExtent, h.pExtent, by simpa using hrLength⟩
    · have hnil : number state.q = 0 := by rw [hempty]; rfl
      simp only [hnil, hall, Nat.zero_mul, Nat.zero_add]
    · cases last with
      | true =>
          rw [hall] at hsmall
          exact absurd (hlast rfl) (Nat.not_le.mpr hsmall)
      | false =>
          refine .inr ⟨hr, fun hzero => hhead ?_⟩
          rw [← hall, show state.r ++ [x] = [0] from hzero]
          rfl
  · rw [if_neg hskip]
    have hdone : state.q = [] → number y ≤ number (state.r ++ [x]) := by
      intro hempty
      exact Nat.le_of_not_lt fun hsmall => hskip ⟨hempty, hcmp.mpr hsmall⟩
    rcases round_digit hy hne hr hlt with ⟨hnone, hsmall⟩ |
      ⟨q, highest, hsome, hhighest, hlow, hcorrect⟩
    · rw [hnone]
      refine ⟨_, rfl, h.next (by simp) hr.lt_base (by simp) hsmall (by decide) ?_ (by simp)
        hrExtent rfl h.pExtent⟩
      intro hempty
      exact absurd (hdone hempty) (Nat.not_le.mpr hsmall)
    · obtain ⟨hds, hlength, hrest⟩ := round_subtract hy hne hr hlt hlow
      rw [hsome]
      simp only [hcorrect, Outcome.value_bind, Outcome.pure_eq]
      refine ⟨_, rfl, h.next ?_ hds ?_ ?_ ?_ ?_ ?_ hrExtent rfl (max_le h.pExtent hhighest)⟩
      · intro hnil
        rw [hnil] at hlength
        simp at hlength
      · rw [hlength]
        simp
      · rw [hrest]
        exact Nat.mod_lt _ hpos
      · exact (Nat.div_lt_iff_lt_mul hpos).mpr (by rwa [Nat.mul_comm] at hlt)
      · intro hempty
        exact Nat.ne_of_gt (Nat.div_pos (hdone hempty) hpos)
      · rw [hrest, Nat.mul_comm]
        exact (Nat.div_add_mod _ _).symm

/-- All rounds. -/
theorem divLoop_spec {xs : List Nat} (hy : Canonical ⟨yn, y⟩) (hne : y ≠ [0])
    (h : DivInvariant y done false state) (hxs : xs ≠ []) (hx : ∀ d ∈ xs, d < base)
    (hhead : (done ++ xs).head? ≠ some 0) (hle : number y ≤ number (done ++ xs)) :
    ∃ next, divLoop y xs state = .value next ∧ DivInvariant y (done ++ xs) true next := by
  induction xs generalizing done state with
  | nil => exact absurd rfl hxs
  | cons x xs ih =>
      have hx₀ := hx x List.mem_cons_self
      have hsplit : done ++ x :: xs = done ++ [x] ++ xs := by simp
      have hhead' : (done ++ [x]).head? ≠ some 0 := by
        cases done with
        | nil => simpa using hhead
        | cons d ds => simpa using hhead
      cases xs with
      | nil =>
          obtain ⟨next, hround, hnext⟩ :=
            @divRound_spec _ _ _ _ true _ hy hne h hx₀ hhead' fun _ => hle
          exact ⟨next, by simp [divLoop, hround], hnext⟩
      | cons x' xs =>
          obtain ⟨middle, hround, hmiddle⟩ :=
            @divRound_spec _ _ _ _ false _ hy hne h hx₀ hhead' (by simp)
          obtain ⟨next, hrest, hnext⟩ := ih hmiddle (by simp)
            (fun d hd => hx d (List.mem_cons_of_mem x hd)) (by rwa [← hsplit])
            (by rwa [← hsplit])
          refine ⟨next, ?_, by rwa [hsplit]⟩
          rw [divLoop]
          simp only [List.isEmpty_cons, hround, Outcome.value_bind]
          exact hrest

end Round

section Divide

variable {x y : Bigint}

/-- What the call returns and wrote where there is something to divide. -/
theorem divModBigint_spec (hx : x.Canonical) (hy : y.Canonical) (hne : y.digits ≠ [0])
    (hle : y.magnitude ≤ x.magnitude) : ∃ state : DivState,
      DivInvariant y.digits x.digits true state ∧ state.q ≠ [] ∧
      ∀ rmndr, divModBigint x y rmndr = .value
        ⟨⟨if rmndr then ⟨x.negative, state.r⟩ else ⟨x.negative != y.negative, state.q⟩, x, y⟩,
          state.extent⟩ := by
  have hpos : 0 < number y.digits :=
    lt_of_lt_of_le (Nat.pow_pos (by decide)) (base_pow_le hy hne)
  have hcmp : ¬ cmpAbsBigint x y < 0 := by
    rw [cmpAbs_neg_iff hx hy, ← magnitude_number x.negative,
      ← magnitude_number y.negative]
    exact Nat.not_lt.mpr hle
  have hle' : number y.digits ≤ number x.digits := by
    rw [magnitude_eq, magnitude_eq] at hle
    exact hle
  have hhead : x.digits.head? ≠ some 0 := by
    refine hx.leading.resolve_left fun hzero => ?_
    rw [hzero] at hle'
    exact absurd hle' (Nat.not_le.mpr hpos)
  have hstart : DivInvariant y.digits [] false ⟨[], [], ⟨0, 0, 0⟩⟩ :=
    ⟨by simp [number], hpos, .inl rfl, by simp, by simp, fun _ => rfl, le_rfl, rfl,
      Nat.zero_le _, le_rfl⟩
  obtain ⟨state, hloop, hstate⟩ :=
    divLoop_spec hy hne hstart hx.ne_nil hx.lt_base hhead hle'
  refine ⟨state, hstate, fun hempty => ?_, fun rmndr => ?_⟩
  · have hsmall := hstate.small
    rw [hstate.start hempty] at hsmall
    exact absurd hle' (Nat.not_le.mpr hsmall)
  · unfold divModBigint
    rw [if_neg hne, if_neg hcmp, hloop]
    rfl

/-- The quotient and the remainder of truncated division, both canonical, with the
operands unchanged and nothing written outside the arrays. -/
structure Divides (x y : Bigint) (quotient remainder : Division) : Prop where
  canonical : quotient.call.result.Canonical ∧ remainder.call.result.Canonical
  value : x.toInt = quotient.call.result.toInt * y.toInt + remainder.call.result.toInt
  small : remainder.call.result.toInt.natAbs < y.toInt.natAbs
  truncated : quotient.call.result.toInt = x.toInt.tdiv y.toInt
  sign : remainder.call.result.toInt = 0 ∨
    remainder.call.result.toInt.sign = x.toInt.sign
  operands : (quotient.call.x = x ∧ quotient.call.y = y) ∧
    (remainder.call.x = x ∧ remainder.call.y = y)
  inBounds : quotient.InBounds x y ∧ remainder.InBounds x y

/-- Both calls return, and what they should. -/
def DividesExactly (x y : Bigint) : Prop :=
  ∃ quotient remainder, divModBigint x y false = .value quotient ∧
    divModBigint x y true = .value remainder ∧ Divides x y quotient remainder

/-- The signs of a quotient and a remainder of absolute values. -/
theorem divides_signs {q r : Bigint} (hy : 0 < y.magnitude)
    (hqsign : q.negative = (x.negative != y.negative))
    (hrsign : r.negative = x.negative)
    (hvalue : x.magnitude = q.magnitude * y.magnitude + r.magnitude)
    (hsmall : r.magnitude < y.magnitude) :
    x.toInt = q.toInt * y.toInt + r.toInt ∧ r.toInt.natAbs < y.toInt.natAbs ∧
      q.toInt = x.toInt.tdiv y.toInt ∧
      (r.toInt = 0 ∨ r.toInt.sign = x.toInt.sign) := by
  have hdiv : x.magnitude / y.magnitude = q.magnitude := by
    rw [hvalue, Nat.mul_comm, Nat.mul_add_div hy, Nat.div_eq_of_lt hsmall, Nat.add_zero]
  have habs : ∀ b : Bigint, b.toInt.natAbs = b.magnitude := by
    intro b
    rw [toInt_eq]
    split_ifs <;> simp
  have hcast : (x.magnitude : Int) = q.magnitude * y.magnitude + r.magnitude := by
    exact_mod_cast hvalue
  have hquot : (x.magnitude : Int).tdiv y.magnitude = q.magnitude := by
    rw [← Int.ofNat_tdiv, hdiv]
  refine ⟨?_, by rw [habs, habs]; exact hsmall, ?_, ?_⟩
  · rw [toInt_eq, toInt_eq, toInt_eq, toInt_eq, hqsign, hrsign, hcast]
    cases x.negative <;> cases y.negative <;> simp <;> ring
  · rw [toInt_eq, toInt_eq, toInt_eq, hqsign]
    cases x.negative <;> cases y.negative <;> simp [hquot]
  · rcases Nat.eq_zero_or_pos r.magnitude with hzero | hpos
    · refine .inl ?_
      rw [toInt_eq, hzero]
      split_ifs <;> rfl
    · refine .inr ?_
      have hxpos : 0 < x.magnitude := by omega
      have hone : ∀ n : Nat, 0 < n → (n : Int).sign = 1 :=
        fun n hn => Int.sign_eq_one_of_pos (by exact_mod_cast hn)
      rw [toInt_eq, toInt_eq, hrsign]
      cases x.negative <;> simp [hone _ hpos, hone _ hxpos]

theorem natAbs_toInt (b : Bigint) : b.toInt.natAbs = b.magnitude := by
  rw [toInt_eq]
  split_ifs <;> simp

theorem divisor_pos (hy : y.Canonical) (hne : y.digits ≠ [0]) : 0 < y.magnitude :=
  lt_of_lt_of_le (Nat.pow_pos (by decide)) (hy.magnitude_le hne)

/-- The quotient has at most as many digits as the lengths differ by just where the
leading digits of the dividend are below the divisor. -/
theorem DivInvariant.quotient_length {state : DivState}
    (h : DivInvariant y.digits x.digits true state) (hpos : 0 < y.magnitude)
    (hq : state.q ≠ []) : state.q.length ≤ x.digits.length - y.digits.length ↔
      x.magnitude / base ^ (x.digits.length - y.digits.length) < y.magnitude := by
  have hsmall : number state.r < y.magnitude := by
    rw [magnitude_eq]
    exact h.small
  have hvalue : x.magnitude = number state.q * y.magnitude + number state.r := by
    rw [magnitude_eq, magnitude_eq]
    exact h.value
  have hdiv : x.magnitude / y.magnitude = number state.q := by
    rw [hvalue, Nat.mul_comm, Nat.mul_add_div hpos, Nat.div_eq_of_lt hsmall, Nat.add_zero]
  have hscale : 0 < base ^ (x.digits.length - y.digits.length) :=
    Nat.pow_pos (by decide)
  have hne : state.q ≠ [0] := by
    intro hzero
    have hleading := h.leading
    rw [hzero] at hleading
    exact hleading rfl
  have hcanonical : Canonical ⟨false, state.q⟩ := ⟨hq, h.digits, .inr h.leading⟩
  rw [Nat.div_lt_iff_lt_mul hscale, Nat.mul_comm, ← Nat.div_lt_iff_lt_mul hpos, hdiv]
  constructor
  · intro hfew
    exact (number_lt h.digits).trans_le (Nat.pow_le_pow_right (by decide) hfew)
  · intro hbelow
    have hpow := lt_of_le_of_lt (base_pow_le hcanonical hne) hbelow
    have := (Nat.pow_lt_pow_iff_right one_lt_base).mp hpow
    omega

/-- The values of a division, and where its writes stay inside the arrays: just where the
leading digits of the dividend are below the divisor. -/
structure DividesInto (x y : Bigint) (quotient remainder : Division) : Prop where
  canonical : quotient.call.result.Canonical ∧ remainder.call.result.Canonical
  value : x.toInt = quotient.call.result.toInt * y.toInt + remainder.call.result.toInt
  small : remainder.call.result.toInt.natAbs < y.toInt.natAbs
  truncated : quotient.call.result.toInt = x.toInt.tdiv y.toInt
  sign : remainder.call.result.toInt = 0 ∨
    remainder.call.result.toInt.sign = x.toInt.sign
  operands : (quotient.call.x = x ∧ quotient.call.y = y) ∧
    (remainder.call.x = x ∧ remainder.call.y = y)
  extent : quotient.extent = remainder.extent
  inBounds : remainder.InBounds x y ↔
    x.magnitude / base ^ (x.digits.length - y.digits.length) < y.magnitude

/-- A dividend below the divisor is the remainder. -/
theorem dividesInto_small (hx : x.Canonical) (hy : y.Canonical) (hne : y.digits ≠ [0])
    (hlt : x.magnitude < y.magnitude) :
    ∃ quotient remainder, divModBigint x y false = .value quotient ∧
      divModBigint x y true = .value remainder ∧ DividesInto x y quotient remainder := by
  have hcmp : cmpAbsBigint x y < 0 := by
    rw [cmpAbs_neg_iff hx hy]
    rwa [magnitude_eq, magnitude_eq] at hlt
  have hcall : ∀ rmndr, divModBigint x y rmndr =
      .value ⟨⟨if rmndr then x else ⟨false, [0]⟩, x, y⟩, ⟨0, 0, 0⟩⟩ := by
    intro rmndr
    unfold divModBigint
    rw [if_neg hne, if_pos hcmp]
  have hzero : (⟨false, [0]⟩ : Bigint).toInt = 0 := by decide
  have hzeroCanonical : Canonical ⟨false, [0]⟩ := ⟨by simp, by decide, .inl rfl⟩
  refine ⟨_, _, hcall false, hcall true, ⟨hzeroCanonical, hx⟩, ?_, ?_, ?_,
    .inr rfl, ⟨⟨rfl, rfl⟩, rfl, rfl⟩, rfl, fun _ => ?_, fun _ => ?_⟩
  · simp [hzero]
  · simpa [natAbs_toInt] using hlt
  · have hquot : (x.magnitude : Int).tdiv y.magnitude = 0 :=
      Int.tdiv_eq_zero_of_lt (by omega) (by omega)
    simp only [Bool.false_eq_true, if_false, hzero]
    rw [toInt_eq, toInt_eq]
    cases x.negative <;> cases y.negative <;> simp [hquot]
  · exact lt_of_le_of_lt (Nat.div_le_self _ _) hlt
  · exact ⟨Nat.zero_le _, Nat.zero_le _, Nat.zero_le _⟩

theorem divModBigint_dividesInto (hx : x.Canonical) (hy : y.Canonical)
    (hne : y.digits ≠ [0]) :
    ∃ quotient remainder, divModBigint x y false = .value quotient ∧
      divModBigint x y true = .value remainder ∧ DividesInto x y quotient remainder := by
  by_cases hlt : x.magnitude < y.magnitude
  · exact dividesInto_small hx hy hne hlt
  · obtain ⟨state, hstate, hq, hcall⟩ :=
      divModBigint_spec hx hy hne (Nat.le_of_not_lt hlt)
    have hpos := divisor_pos hy hne
    have hqExtent := hstate.qExtent
    have hlength := hstate.quotient_length hpos hq
    have hqPos := List.length_pos_of_ne_nil hq
    have hqCanonical : Canonical ⟨x.negative != y.negative, state.q⟩ :=
      ⟨hq, hstate.digits, .inr hstate.leading⟩
    have hrCanonical : Canonical ⟨false, state.r⟩ := hstate.kept
    have hsmall : number state.r < y.magnitude := by
      rw [magnitude_eq]
      exact hstate.small
    have hvalue : x.magnitude = number state.q * y.magnitude + number state.r := by
      rw [magnitude_eq, magnitude_eq]
      exact hstate.value
    obtain ⟨hexact, hless, htruncated, hsign⟩ := divides_signs
      (q := ⟨x.negative != y.negative, state.q⟩) (r := ⟨x.negative, state.r⟩) hpos rfl rfl
      (hvalue.trans (by rw [magnitude_number _ state.q, magnitude_number _ state.r]))
      (by rw [magnitude_number]; exact hsmall)
    refine ⟨_, _, hcall false, hcall true, ⟨hqCanonical, hrCanonical.withSign x.negative⟩,
      hexact, hless, htruncated, hsign, ⟨⟨rfl, rfl⟩, rfl, rfl⟩, rfl, fun hbounds => ?_,
      fun hfits => ?_⟩
    · rw [← hlength, ← hqExtent]
      exact hbounds.q
    · have hroom := hlength.mpr hfits
      exact ⟨hstate.rExtent, by simpa [hqExtent] using hroom,
        hstate.pExtent.trans (by omega)⟩

/-- `divModBigint` divides exactly, and the writes to its arrays stay inside them
just where the leading digits of the dividend, as many as the divisor has, are a
number below the divisor. -/
theorem divModBigint_exact_iff (hx : x.Canonical) (hy : y.Canonical) (hne : y.digits ≠ [0]) :
    DividesExactly x y ↔
      x.magnitude / base ^ (x.digits.length - y.digits.length) < y.magnitude := by
  obtain ⟨quotient, remainder, hquotient, hremainder, hinto⟩ :=
    divModBigint_dividesInto hx hy hne
  constructor
  · rintro ⟨quotient', remainder', -, hremainder', hdivides⟩
    rw [hremainder, Outcome.value.injEq] at hremainder'
    rw [← hinto.inBounds, hremainder']
    exact hdivides.inBounds.2
  · intro hfits
    have hbounds := hinto.inBounds.mpr hfits
    have hbounds' : quotient.InBounds x y :=
      ⟨hinto.extent ▸ hbounds.r, hinto.extent ▸ hbounds.q, hinto.extent ▸ hbounds.p⟩
    exact ⟨quotient, remainder, hquotient, hremainder, hinto.canonical, hinto.value,
      hinto.small, hinto.truncated, hinto.sign, hinto.operands, hbounds', hbounds⟩

theorem divModBigint_exact_tens : DividesExactly ⟨false, [1, 5]⟩ ⟨true, [7]⟩ :=
  (divModBigint_exact_iff (x := ⟨false, [1, 5]⟩) (y := ⟨true, [7]⟩)
    ⟨by simp, by decide, .inr (by decide)⟩ ⟨by simp, by decide, .inr (by decide)⟩
    (by decide)).mpr (by decide)

/-- Seven by two: the digit of the quotient is written behind the end of `q`. -/
theorem divModBigint_outOfBounds : ¬ DividesExactly ⟨false, [7]⟩ ⟨false, [2]⟩ := by
  have hx : Canonical ⟨false, [7]⟩ := ⟨by simp, by decide, .inr (by decide)⟩
  have hy : Canonical ⟨false, [2]⟩ := ⟨by simp, by decide, .inr (by decide)⟩
  obtain ⟨quotient, remainder, -, hremainder, hinto⟩ :=
    divModBigint_dividesInto hx hy (by decide)
  rintro ⟨quotient', remainder', -, hremainder', hdivides⟩
  rw [hremainder, Outcome.value.injEq] at hremainder'
  subst hremainder'
  exact absurd (hinto.inBounds.mp hdivides.inBounds.2) (by decide)

end Divide

end Bigint

end NewLispNeo
