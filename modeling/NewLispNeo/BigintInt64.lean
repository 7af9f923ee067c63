/-
Between 64-bit integers and bigints: `intToBigint` and `bigintToInt64`.
-/
import NewLispNeo.BigintArith

namespace NewLispNeo

namespace Bigint

/-- `BIGINT_BASE2`. -/
def base2 : Int := 1000000000000000000

/-- One step of `intToBigint`: the digit for `unit`, if the number is above it.
The product of digit and unit is an `int` where the unit is one. -/
def splitDigit (unit : Int) (product : Int → Int) (state : List Nat × Int) :
    List Nat × Int :=
  let (digits, num) := state
  if unit < num then
    let digit := int32 (num.tdiv unit)
    (digits ++ [digit.toNat], int64 (num - product (digit * unit)))
  else (digits, num)

/-- `intToBigint`.  The negation wraps at the least integer. -/
def intToBigint (num : Word) : Bigint :=
  let negative := decide (num.toInt < 0)
  let num := if negative then int64 (-num.toInt) else num.toInt
  let (digits, num) := splitDigit base int32 (splitDigit base2 int64 ([], num))
  ⟨negative, digits ++ [(int32 num).toNat]⟩

def maxInt : Bigint := ⟨false, [9, 223372036, 854775807]⟩
def minInt : Bigint := ⟨true, [9, 223372036, 854775808]⟩

/-- `bigintToInt64`. -/
def bigintToInt64 (b : Bigint) : Outcome Error Word :=
  if cmpBigint b maxInt = 1 ∨ cmpBigint b minInt = -1 then .error .numberOutOfRange
  else
    let num : Word := b.digits.foldl (fun num d => num * .ofNat 64 base + .ofNat 64 d) 0
    .value (if b.negative then num * -1 else num)

section Compare

variable {x y : Bigint}

/-- `cmpBigint` compares the integers, whatever the sign of zero. -/
theorem cmp_spec (hx : x.Canonical) (hy : y.Canonical) :
    (cmpBigint x y = 1 ∧ y.toInt < x.toInt) ∨ (cmpBigint x y = 0 ∧ x.toInt = y.toInt) ∨
      (cmpBigint x y = -1 ∧ x.toInt < y.toInt) := by
  have hzero : ∀ {b : Bigint}, b.Canonical → b.digits ≠ [0] → 0 < b.magnitude := by
    intro b hb hne
    exact Nat.lt_of_lt_of_le (Nat.pow_pos (by decide)) (hb.magnitude_le hne)
  have hnil : ∀ {b : Bigint}, b.digits = [0] → b.magnitude = 0 := by
    intro b hb
    rw [magnitude, hb]
    rfl
  unfold cmpBigint
  rw [toInt_eq, toInt_eq]
  by_cases hboth : x.digits = [0] ∧ y.digits = [0]
  · rw [if_pos hboth, hnil hboth.1, hnil hboth.2]
    exact .inr (.inl ⟨rfl, by simp⟩)
  · rw [if_neg hboth]
    have hpos : 0 < x.magnitude + y.magnitude := by
      rcases not_and_or.mp hboth with hne | hne
      · exact Nat.add_pos_left (hzero hx hne) _
      · exact Nat.add_pos_right _ (hzero hy hne)
    cases hxn : x.negative <;> cases hyn : y.negative
    · rcases cmpAbs_spec hx hy with ⟨hcmp, hlt⟩ | ⟨hcmp, heq⟩ | ⟨hcmp, hlt⟩
      · exact .inl ⟨by simpa using hcmp, by simpa using hlt⟩
      · exact .inr (.inl ⟨by simpa using hcmp, by simpa using magnitude_digits heq⟩)
      · exact .inr (.inr ⟨by simpa using hcmp, by simpa using hlt⟩)
    · exact .inl ⟨by simp, by simp; omega⟩
    · exact .inr (.inr ⟨by simp, by simp; omega⟩)
    · rcases cmpAbs_spec hx hy with ⟨hcmp, hlt⟩ | ⟨hcmp, heq⟩ | ⟨hcmp, hlt⟩
      · exact .inr (.inr ⟨by simpa using hcmp, by simpa using hlt⟩)
      · exact .inr (.inl ⟨by simpa using hcmp, by simpa using magnitude_digits heq⟩)
      · exact .inl ⟨by simp [hcmp], by simpa using hlt⟩

end Compare

theorem foldl_word (ds : List Nat) (k : Nat) :
    ds.foldl (fun (num : Word) d => num * .ofNat 64 base + .ofNat 64 d) (.ofNat 64 k) =
      .ofNat 64 (ds.foldl (fun n d => n * base + d) k) := by
  induction ds generalizing k with
  | nil => rfl
  | cons d ds ih =>
      rw [List.foldl_cons, List.foldl_cons, ← BitVec.ofNat_mul, ← BitVec.ofNat_add, ih]

/-- What fits is converted, and nothing else. -/
theorem bigintToInt64_spec {b : Bigint} (hb : b.Canonical) :
    (-2 ^ 63 ≤ b.toInt ∧ b.toInt < 2 ^ 63 →
      ∃ n, bigintToInt64 b = .value n ∧ n.toInt = b.toInt) ∧
    (¬ (-2 ^ 63 ≤ b.toInt ∧ b.toInt < 2 ^ 63) →
      bigintToInt64 b = .error .numberOutOfRange) := by
  have hmax : maxInt.Canonical := ⟨by simp [maxInt], by decide, .inr (by decide)⟩
  have hmin : minInt.Canonical := ⟨by simp [minInt], by decide, .inr (by decide)⟩
  have hmaxInt : maxInt.toInt = 9223372036854775807 := by decide
  have hminInt : minInt.toInt = -9223372036854775808 := by decide
  have hbounds : (cmpBigint b maxInt = 1 ∨ cmpBigint b minInt = -1) ↔
      ¬ (-2 ^ 63 ≤ b.toInt ∧ b.toInt < 2 ^ 63) := by
    have hhigh := cmp_spec hb hmax
    have hlow := cmp_spec hb hmin
    omega
  unfold bigintToInt64
  constructor
  · intro hrange
    rw [if_neg (hbounds.not.mpr (not_not.mpr hrange))]
    refine ⟨_, rfl, ?_⟩
    have hfold : b.digits.foldl (fun (num : Word) d =>
        num * .ofNat 64 base + .ofNat 64 d) 0 = .ofNat 64 b.magnitude :=
      foldl_word b.digits 0
    rw [hfold]
    rw [toInt_eq] at hrange ⊢
    cases hsign : b.negative with
    | true =>
        rw [hsign, if_pos rfl] at hrange
        have hone : (-1 : Word).toInt = -1 := by decide
        rw [if_pos rfl, if_pos rfl, BitVec.toInt_mul, BitVec.toInt_ofNat',
          hone, Int.bmod_mul_bmod]
        exact (int64_eq (by omega) (by omega)).trans (by omega)
    | false =>
        rw [hsign, if_neg Bool.false_ne_true] at hrange
        rw [if_neg Bool.false_ne_true, if_neg Bool.false_ne_true, BitVec.toInt_ofNat']
        exact int64_eq (by omega) (by omega)
  · intro hrange
    rw [if_pos (hbounds.mpr hrange)]

/-- The integers `intToBigint` converts: not the least one, no power of the base,
and above the second power no zero in the middle, nor a rest that is the base. -/
def Converts (n : Word) : Prop :=
  let m := n.toInt.natAbs
  m ≠ 2 ^ 63 ∧ m ≠ 10 ^ 9 ∧ m ≠ 10 ^ 18 ∧ (10 ^ 18 < m → 10 ^ 9 < m % 10 ^ 18)

instance (n : Word) : Decidable (Converts n) := by
  unfold Converts
  infer_instance

/-- `intToBigint` is exact on an integer, and `bigintToInt64` inverts it. -/
structure ConvertsExactly (n : Word) : Prop where
  canonical : (intToBigint n).Canonical
  value : (intToBigint n).toInt = n.toInt
  inverse : bigintToInt64 (intToBigint n) = .value n

section IntToBigint

variable {unit num : Int} {product : Int → Int} {digits : List Nat}

theorem splitDigit_above (h : unit < num) : splitDigit unit product (digits, num) =
    (digits ++ [(int32 (num.tdiv unit)).toNat],
      int64 (num - product (int32 (num.tdiv unit) * unit))) := if_pos h

theorem splitDigit_below (h : ¬ unit < num) :
    splitDigit unit product (digits, num) = (digits, num) := if_neg h

/-- The wrapped product of the second step does no harm to the last digit. -/
theorem int32_rest {num product : Int} :
    int32 (int64 (num - int32 product)) = int32 (num - product) := by
  unfold int32 int64
  rw [Int.bmod_bmod_of_dvd (by norm_num), Int.sub_bmod_bmod]

variable {m : Nat}

/-- The last digits of a number below the second power. -/
theorem lastDigits (hm : m ≤ 10 ^ 18) :
    (let (digits, num) := splitDigit base int32 (digits, m)
     digits ++ [(int32 num).toNat]) =
      if 10 ^ 9 < m then digits ++ [m / 10 ^ 9, m % 10 ^ 9] else digits ++ [m] := by
  have hbase : (base : Int) = 10 ^ 9 := rfl
  by_cases habove : 10 ^ 9 < m
  · have hquot : (m : Int).tdiv (10 ^ 9) = (m / 10 ^ 9 : Nat) := by
      rw [Int.tdiv_eq_ediv_of_nonneg (by omega)]
      omega
    have hle : m / 10 ^ 9 ≤ 10 ^ 9 := by omega
    rw [if_pos habove, splitDigit_above (by rw [hbase]; omega)]
    simp only [int32_rest, hbase, hquot]
    rw [int32_eq (by omega) (by omega), int32_eq (by omega) (by omega)]
    have hrest : ((m : Int) - (m / 10 ^ 9 : Nat) * 10 ^ 9).toNat = m % 10 ^ 9 := by
      omega
    simp only [List.append_assoc, List.singleton_append, Int.toNat_natCast, hrest]
  · rw [if_neg habove, splitDigit_below (by rw [hbase]; omega)]
    simp only
    rw [int32_eq (by omega) (by omega), Int.toNat_natCast]

theorem firstDigit (hm : m < 2 ^ 63) (habove : 10 ^ 18 < m) :
    splitDigit base2 int64 ([], m) = ([m / 10 ^ 18], ((m % 10 ^ 18 : Nat) : Int)) := by
  have hbase : base2 = 10 ^ 18 := rfl
  have hquot : (m : Int).tdiv (10 ^ 18) = (m / 10 ^ 18 : Nat) := by
    rw [Int.tdiv_eq_ediv_of_nonneg (by omega)]
    omega
  have hproduct : int64 ((m / 10 ^ 18 : Nat) * 10 ^ 18) = (m / 10 ^ 18 : Nat) * 10 ^ 18 :=
    int64_eq (by omega) (by omega)
  have hrest : (m : Int) - (m / 10 ^ 18 : Nat) * 10 ^ 18 = (m % 10 ^ 18 : Nat) := by
    omega
  rw [splitDigit_above (by rw [hbase]; omega), hbase, hquot,
    int32_eq (by omega) (by omega), hproduct, hrest, int64_eq (by omega) (by omega)]
  rfl

/-- The digits of a number that is not the least one. -/
theorem intToBigint_digits {n : Word} (hmin : n.toInt.natAbs ≠ 2 ^ 63) :
    (intToBigint n).negative = decide (n.toInt < 0) ∧
    (intToBigint n).digits =
      let m := n.toInt.natAbs
      if 10 ^ 18 < m then
        if 10 ^ 9 < m % 10 ^ 18 then
          [m / 10 ^ 18, m % 10 ^ 18 / 10 ^ 9, m % 10 ^ 18 % 10 ^ 9]
        else [m / 10 ^ 18, m % 10 ^ 18]
      else if 10 ^ 9 < m then [m / 10 ^ 9, m % 10 ^ 9] else [m] := by
  refine ⟨rfl, ?_⟩
  have hlow := n.le_toInt
  have hhigh := n.toInt_lt
  have hnum : (if decide (n.toInt < 0) = true then int64 (-n.toInt) else n.toInt) =
      (n.toInt.natAbs : Int) := by
    by_cases hneg : n.toInt < 0
    · rw [if_pos (decide_eq_true hneg), int64_eq (by omega) (by omega)]
      omega
    · rw [if_neg (by simpa using hneg)]
      omega
  unfold intToBigint
  simp only [hnum]
  generalize hm : n.toInt.natAbs = m at hmin ⊢
  by_cases habove : 10 ^ 18 < m
  · have hlast := @lastDigits [m / 10 ^ 18] (m % 10 ^ 18) (by omega)
    rw [if_pos habove, firstDigit (by omega) habove]
    simpa using hlast
  · have hlast := @lastDigits [] m (by omega)
    have hbelow : ¬ base2 < (m : Int) := by
      rw [show base2 = 10 ^ 18 from rfl]
      omega
    rw [if_neg habove, splitDigit_below hbelow]
    simpa using hlast

/-- Two or three digits are canonical when they are digits and the first is not 0. -/
theorem canonical_cons {negative : Bool} {d : Nat} {ds : List Nat} (hd : 0 < d)
    (hall : ∀ digit ∈ d :: ds, digit < base) : (⟨negative, d :: ds⟩ : Bigint).Canonical :=
  ⟨List.cons_ne_nil d ds, hall, .inr (by simpa using Nat.ne_of_gt hd)⟩

end IntToBigint

section Exact

variable {n : Word}

theorem toInt_of_magnitude {b : Bigint} (hnegative : b.negative = decide (n.toInt < 0))
    (hmagnitude : b.magnitude = n.toInt.natAbs) : b.toInt = n.toInt := by
  rw [toInt_eq, hnegative, hmagnitude]
  by_cases hneg : n.toInt < 0
  · rw [if_pos (decide_eq_true hneg)]
    omega
  · rw [if_neg (by simpa using hneg)]
    omega

/-- On the integers it converts the array is canonical and denotes the integer. -/
theorem intToBigint_exact (h : Converts n) :
    (intToBigint n).Canonical ∧ (intToBigint n).toInt = n.toInt := by
  obtain ⟨hmin, hbase, hbase2, hmiddle⟩ := h
  obtain ⟨hnegative, hdigits⟩ := intToBigint_digits hmin
  have hlow := n.le_toInt
  have hhigh := n.toInt_lt
  have hbig : intToBigint n = ⟨decide (n.toInt < 0), (intToBigint n).digits⟩ := by
    rw [← hnegative]
  rw [hbig, hdigits]
  simp only
  have hb : base = 10 ^ 9 := rfl
  generalize hm : n.toInt.natAbs = m at hmin hbase hbase2 hmiddle
  by_cases habove2 : 10 ^ 18 < m
  · rw [if_pos habove2, if_pos (hmiddle habove2)]
    refine ⟨canonical_cons (by omega) ?_, toInt_of_magnitude rfl ?_⟩
    · simp only [List.mem_cons, List.not_mem_nil, or_false, hb]
      rintro digit (rfl | rfl | rfl) <;> omega
    · simp only [magnitude, List.foldl, hb]
      omega
  · rw [if_neg habove2]
    by_cases habove : 10 ^ 9 < m
    · rw [if_pos habove]
      refine ⟨canonical_cons (by omega) ?_, toInt_of_magnitude rfl ?_⟩
      · simp only [List.mem_cons, List.not_mem_nil, or_false, hb]
        rintro digit (rfl | rfl) <;> omega
      · simp only [magnitude, List.foldl, hb]
        omega
    · rw [if_neg habove]
      refine ⟨⟨List.cons_ne_nil _ _, ?_, ?_⟩, toInt_of_magnitude rfl ?_⟩
      · simp only [List.mem_singleton, hb]
        rintro digit rfl
        omega
      · simp only [List.cons.injEq, and_true, List.head?_cons, ne_eq, Option.some.injEq]
        omega
      · simp only [magnitude, List.foldl]
        omega

/-- `intToBigint` is exact on no other integer. -/
theorem converts_of_exact (hcanonical : (intToBigint n).Canonical)
    (hvalue : (intToBigint n).toInt = n.toInt) : Converts n := by
  have hlow := n.le_toInt
  have hhigh := n.toInt_lt
  have hb : base = 10 ^ 9 := rfl
  have hmin : n.toInt.natAbs ≠ 2 ^ 63 := by
    intro hmin
    have hn : n = BitVec.intMin 64 := by
      apply BitVec.eq_of_toInt_eq
      rw [show (BitVec.intMin 64).toInt = -2 ^ 63 by decide]
      omega
    rw [hn] at hvalue
    exact absurd hvalue (by decide)
  obtain ⟨hnegative, hdigits⟩ := intToBigint_digits hmin
  have hlt := hcanonical.lt_base
  have hmagnitude : (intToBigint n).magnitude = n.toInt.natAbs := by
    rw [toInt_eq] at hvalue
    by_cases hneg : (intToBigint n).negative = true
    · rw [if_pos hneg] at hvalue
      omega
    · rw [if_neg hneg] at hvalue
      omega
  rw [magnitude] at hmagnitude
  rw [hdigits] at hmagnitude hlt
  simp only [hb] at hmagnitude hlt
  unfold Converts
  generalize n.toInt.natAbs = m at *
  refine ⟨hmin, ?_, ?_, ?_⟩
  · rintro rfl
    simp at hlt
  · rintro rfl
    simp at hlt
  · intro habove2
    by_contra hmiddle
    rw [if_pos habove2, if_neg hmiddle] at hmagnitude
    simp only [List.foldl] at hmagnitude
    omega

/-- `intToBigint` is exact, and inverted by `bigintToInt64`, on just the integers it
converts; `bigintToInt64` gives the value of every bigint in the range of an
integer and an error on every other one. -/
theorem int64_conversions (n : Word) {b : Bigint} (hb : b.Canonical) :
    (ConvertsExactly n ↔ Converts n) ∧
      (-2 ^ 63 ≤ b.toInt ∧ b.toInt < 2 ^ 63 →
        ∃ k, bigintToInt64 b = .value k ∧ k.toInt = b.toInt) ∧
      (¬ (-2 ^ 63 ≤ b.toInt ∧ b.toInt < 2 ^ 63) →
        bigintToInt64 b = .error .numberOutOfRange) := by
  refine ⟨⟨?_, ?_⟩, bigintToInt64_spec hb⟩
  · intro hexact
    exact converts_of_exact hexact.canonical hexact.value
  · intro hconverts
    obtain ⟨hcanonical, hvalue⟩ := intToBigint_exact hconverts
    have hrange : -2 ^ 63 ≤ (intToBigint n).toInt ∧ (intToBigint n).toInt < 2 ^ 63 := by
      rw [hvalue]
      exact ⟨n.le_toInt, n.toInt_lt⟩
    obtain ⟨k, hk, hkn⟩ := (bigintToInt64_spec hcanonical).1 hrange
    refine ⟨hcanonical, hvalue, ?_⟩
    rw [hk, BitVec.eq_of_toInt_eq (hkn.trans hvalue)]

theorem int64_conversions_limit : ConvertsExactly 1000000001 ∧
    bigintToInt64 ⟨false, [9, 223372036, 854775808]⟩ = .error .numberOutOfRange := by
  have hcanonical : Canonical ⟨false, [9, 223372036, 854775808]⟩ :=
    ⟨by simp, by decide, .inr (by decide)⟩
  obtain ⟨hconverts, -, hrange⟩ := int64_conversions 1000000001 hcanonical
  exact ⟨hconverts.mpr (by decide), hrange (by decide)⟩

/-- Two digits where there should be three: the rest is below the base. -/
theorem intToBigint_skips_middle :
    intToBigint 2000000000000000005 = ⟨false, [2, 5]⟩ ∧
    ¬ ConvertsExactly 2000000000000000005 := by
  have hdigits : intToBigint 2000000000000000005 = ⟨false, [2, 5]⟩ := by decide
  refine ⟨hdigits, fun hexact => ?_⟩
  have hvalue := hexact.value
  rw [hdigits] at hvalue
  exact absurd hvalue (by decide)

end Exact

end Bigint

end NewLispNeo
