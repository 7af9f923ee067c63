/-
`compareCells` orders cells like labelled trees, as long as the numbers it converts
are exact and symbols do not meet contexts.
-/
import NewLispNeo.Arith
import NewLispNeo.Binary64Round
import NewLispNeo.BigintInt64
import NewLispNeo.Startup
import NewLispNeo.TreeOrder
import Mathlib.Data.String.Basic
import Mathlib.Tactic.NormNum
import Mathlib.Tactic.Ring

namespace NewLispNeo

open LabelTree

/-- What decides between two cells before their elements: a rank for the types, a
number, the bytes of a string, and the names of a symbol. -/
abbrev CellLabel := ℕ ×ₗ ℤ ×ₗ List ℕ ×ₗ String ×ₗ String

def cellLabel (rank : ℕ) (number : ℤ) (bytes : List ℕ) (context name : String) : CellLabel :=
  toLex (rank, toLex (number, toLex (bytes, toLex (context, name))))

section Labels

variable (rt : Runtime)

/-- The label of a cell that is not `nil` or `true`; numbers in units of the smallest
`double`. -/
def plainLabel : Cell → CellLabel
  | .long n => cellLabel 2 (n.toInt * 2 ^ 1074) [] "" ""
  | .bigint b => cellLabel 2 (b.toInt * 2 ^ 1074) [] "" ""
  | .float f => cellLabel 2 f.scaled [] "" ""
  | .string s => cellLabel 4 0 (s.map UInt8.toNat) "" ""
  | .symbol s => cellLabel 5 0 [] s.context s.name
  | .context s => cellLabel 6 (rt.symbolAddress s).toInt [] "" ""
  | .quote _ => cellLabel 10 0 [] "" ""
  | .expression _ => cellLabel 11 0 [] "" ""
  | .lambda _ _ => cellLabel 12 0 [] "" ""
  | .fexpr _ => cellLabel 13 0 [] "" ""
  | .array cells => cellLabel 14 cells.length [] "" ""
  | _ => cellLabel 15 0 [] "" ""

/-- The label of a cell. -/
def labelOf (x : Cell) : CellLabel :=
  if isNil x then cellLabel 0 0 [] "" ""
  else if isTrue x then cellLabel 1 0 [] "" ""
  else plainLabel rt x

mutual

/-- What hangs off a cell, as trees. -/
def childrenOf : Cell → List (LabelTree CellLabel)
  | .quote cell => [.node (labelOf rt cell) (childrenOf cell)]
  | .expression cells => treesOf cells
  | .lambda _ cells => treesOf cells
  | .fexpr cells => treesOf cells
  | .array cells => treesOf cells
  | _ => []

def treesOf : List Cell → List (LabelTree CellLabel)
  | [] => []
  | x :: xs => .node (labelOf rt x) (childrenOf x) :: treesOf xs

end

/-- A cell as a tree. -/
def treeOf (x : Cell) : LabelTree CellLabel := .node (labelOf rt x) (childrenOf rt x)

mutual

/-- The cells inside that are no lists and no arrays. -/
def atomsOf : Cell → List Cell
  | .quote cell => atomsOf cell
  | .expression cells => atomsOfAll cells
  | .lambda _ cells => atomsOfAll cells
  | .fexpr cells => atomsOfAll cells
  | .array cells => atomsOfAll cells
  | x => [x]

def atomsOfAll : List Cell → List Cell
  | [] => []
  | x :: xs => atomsOf x ++ atomsOfAll xs

end

end Labels

/-- The values `compareCells` is made for, without the lists and arrays of them. -/
def isScalar : Cell → Bool
  | .nil | .true_ | .long _ | .bigint _ | .float _ | .string _ | .symbol _ | .context _ => true
  | _ => false

/-- Cells without a NaN, with canonical bigints, where the lengths of two strings differ by
what an `int` holds, and a 64-bit integer and a bigint that meet are converted to one another. -/
structure Convertible (rt : Runtime) (A : Set Cell) : Prop where
  atom : ∀ x ∈ A, isScalar x = true
  string : ∀ l r, .string l ∈ A → .string r ∈ A → l.length < r.length + 2 ^ 31
  number : ∀ f, .float f ∈ A → f.isNaN = false
  bigint : ∀ f b, .float f ∈ A → .bigint b ∈ A → (rt.bigintCellToFloat b).isNaN = false
  canonical : ∀ b, .bigint b ∈ A → b.Canonical
  longToBigint : ∀ n b, .long n ∈ A → .bigint b ∈ A →
    (rt.intToBigint n).Canonical ∧ (rt.intToBigint n).toInt = n.toInt
  bigintToLong : ∀ n b, .long n ∈ A → .bigint b ∈ A →
    ∃ w, rt.bigintToInt64 b = some w ∧ w.toInt = b.toInt

/-- Cells that are compared as they are: integers that meet a `double` convert exactly, and
no symbol but `nil` and `true` meets a context. -/
structure Exact (rt : Runtime) (A : Set Cell) : Prop where
  floatLong : ∀ f n, .float f ∈ A → .long n ∈ A →
    (Binary64.ofInt n.toInt).scaled = n.toInt * 2 ^ 1074
  floatBigint : ∀ f b, .float f ∈ A → .bigint b ∈ A →
    (rt.bigintCellToFloat b).scaled = b.toInt * 2 ^ 1074
  symbolContext : ∀ s c, .symbol s ∈ A → .context c ∈ A → s = nilSymbol ∨ s = trueSymbol

structure Comparable (rt : Runtime) (A : Set Cell) : Prop extends
  Convertible rt A, Exact rt A

section Atoms

variable {rt : Runtime} {A : Set Cell} {x y : Cell}

theorem sign_cellLabel {rank rank' : ℕ} {number number' : ℤ} {bytes bytes' : List ℕ}
    {context context' name name' : String} :
    sign (cellLabel rank number bytes context name)
        (cellLabel rank' number' bytes' context' name') =
      if sign rank rank' ≠ 0 then sign rank rank'
      else if sign number number' ≠ 0 then sign number number'
      else if sign bytes bytes' ≠ 0 then sign bytes bytes'
      else if sign context context' ≠ 0 then sign context context'
      else sign name name' := by
  unfold cellLabel
  rw [sign_lex, sign_lex, sign_lex, sign_lex]

theorem sign_scale (m n : ℤ) : sign (m * 2 ^ 1074) (n * 2 ^ 1074) = sign m n := by
  have hpos : (0 : ℤ) < 2 ^ 1074 := by positivity
  simp only [sign, mul_lt_mul_iff_left₀ hpos]

theorem compareWords_eq (l r : Word) : compareWords l r = sign l.toInt r.toInt := rfl

theorem compareFloats_eq (hx : (getDirectFloat rt x).isNaN = false)
    (hy : (getDirectFloat rt y).isNaN = false) :
    compareFloats rt x y =
      sign (getDirectFloat rt x).scaled (getDirectFloat rt y).scaled := by
  simp only [compareFloats, hx, hy, Binary64.lt, sign, Bool.not_false, Bool.true_and,
    Bool.or_self, Bool.false_eq_true, if_false, decide_eq_true_eq]

theorem cmpBigint_sign {x y : Bigint} (hx : x.Canonical) (hy : y.Canonical) :
    cmpBigint x y = sign x.toInt y.toInt := by
  rcases Bigint.cmp_spec hx hy with ⟨hcmp, hlt⟩ | ⟨hcmp, heq⟩ | ⟨hcmp, hlt⟩
  · rw [hcmp, sign, if_neg hlt.not_gt, if_pos hlt]
  · rw [hcmp, heq, sign_self]
  · rw [hcmp, sign, if_pos hlt]

theorem strcmp_sign (l r : String) : strcmp l r = sign l r := by
  unfold strcmp
  rcases lt_trichotomy l r with hlt | rfl | hgt
  · rw [if_neg hlt.ne, if_pos hlt, sign, if_pos hlt]
  · simp
  · rw [if_neg hgt.ne', if_neg hgt.not_gt, sign, if_neg hgt.not_gt, if_pos hgt]

theorem sign_bytes (l r : List UInt8) :
    sign (l.map UInt8.toNat) (r.map UInt8.toNat) =
      if firstDifference l r ≠ 0 then firstDifference l r else sign l.length r.length := by
  induction l generalizing r with
  | nil =>
      cases r with
      | nil => simp [firstDifference]
      | cons b bs => simp [firstDifference, sign]
  | cons a as ih =>
      cases r with
      | nil => simp [firstDifference, sign]
      | cons b bs =>
          rw [List.map_cons, List.map_cons, sign_cons, ih]
          rcases lt_trichotomy a.toNat b.toNat with hlt | heq | hgt
          · have hab : a < b := hlt
            simp [firstDifference, sign, hab, hlt]
          · obtain rfl := UInt8.toNat_inj.1 heq
            simp [firstDifference, sign]
          · have hba : b < a := hgt
            simp [firstDifference, sign, hba, hgt, UInt8.lt_asymm hba, hgt.not_gt]

/-- Only the bytes up to the end of the shorter string count. -/
theorem firstDifference_take (l r : List UInt8) {n : Nat} (h : l.length ≤ n ∨ r.length ≤ n) :
    firstDifference (l.take n) (r.take n) = firstDifference l r := by
  induction l generalizing r n with
  | nil => simp [firstDifference]
  | cons a as ih =>
      cases r with
      | nil => simp [firstDifference]
      | cons b bs =>
          cases n with
          | zero => simp at h
          | succ n =>
              simp only [List.length_cons, Nat.add_le_add_iff_right] at h
              simp only [List.take_succ_cons, firstDifference, ih bs h]

theorem firstDifference_zero {l r : List UInt8} (h : l.length = r.length) :
    firstDifference (l ++ [0]) (r ++ [0]) = firstDifference l r := by
  induction l generalizing r with
  | nil =>
      obtain rfl := List.eq_nil_of_length_eq_zero h.symm
      rfl
  | cons a as ih =>
      cases r with
      | nil => simp at h
      | cons b bs =>
          simp only [List.length_cons, Nat.add_right_cancel_iff] at h
          simp only [List.cons_append, firstDifference, ih h]

/-- `memcmp` inside of two strings. -/
theorem memcmp_inside {l r : List UInt8} {n : Nat} (hl : n ≤ l.length) (hr : n ≤ r.length)
    (h : n = l.length ∨ n = r.length) :
    memcmp (l ++ [0]) (r ++ [0]) n = .value (firstDifference l r) := by
  have hinside : n ≤ (l ++ [0]).length ∧ n ≤ (r ++ [0]).length := by
    simp only [List.length_append]
    omega
  rw [memcmp, if_pos hinside, List.take_append_of_le_length hl, List.take_append_of_le_length hr,
    firstDifference_take l r (by omega)]

/-- Strings whose lengths differ by what an `int` holds are ordered by their bytes. -/
theorem compareStrings_sign {l r : List UInt8} (hl : l.length < r.length + 2 ^ 31)
    (hr : r.length < l.length + 2 ^ 31) :
    compareStrings l r = .value (sign (l.map UInt8.toNat) (r.map UInt8.toNat)) := by
  have hcomp : int32 (l.length - r.length) = l.length - r.length :=
    int32_eq (by omega) (by omega)
  rw [compareStrings, hcomp, sign_bytes]
  rcases lt_trichotomy l.length r.length with hlt | heq | hgt
  · rw [if_neg (by omega), if_neg (by omega), memcmp_inside le_rfl hlt.le (.inl rfl),
      sign, if_pos hlt]
    by_cases hzero : firstDifference l r = 0 <;> simp [hzero]
  · have hinside : l.length + 1 ≤ (l ++ [0]).length ∧ l.length + 1 ≤ (r ++ [0]).length := by
      simp [heq]
    rw [if_pos (by omega), memcmp, if_pos hinside, List.take_of_length_le (by simp),
      List.take_of_length_le (by simp [heq]), firstDifference_zero heq, heq, sign_self]
    by_cases hzero : firstDifference l r = 0 <;> simp [hzero]
  · rw [if_neg (by omega), if_pos (by omega), memcmp_inside hgt.le le_rfl (.inr rfl),
      sign, if_neg hgt.not_gt, if_pos hgt]
    by_cases hzero : firstDifference l r = 0 <;> simp [hzero]

theorem sign_rank {rank rank' : ℕ} (h : rank < rank') (number number' : ℤ)
    (bytes bytes' : List ℕ) (context context' name name' : String) :
    sign (cellLabel rank number bytes context name)
      (cellLabel rank' number' bytes' context' name') = -1 := by
  rw [sign_cellLabel]
  simp [sign, h]

theorem sign_rank' {rank rank' : ℕ} (h : rank < rank') (number number' : ℤ)
    (bytes bytes' : List ℕ) (context context' name name' : String) :
    sign (cellLabel rank' number' bytes' context' name')
      (cellLabel rank number bytes context name) = 1 := by
  rw [sign_swap (cellLabel rank number bytes context name), sign_rank h]
  rfl

theorem plainLabel_rank (rt : Runtime) (x : Cell) : ∃ rank number bytes context name,
    2 ≤ rank ∧ plainLabel rt x = cellLabel rank number bytes context name := by
  cases x <;> exact ⟨_, _, _, _, _, by decide, rfl⟩

theorem not_nil_and_true (x : Cell) : ¬ (isNil x = true ∧ isTrue x = true) := by
  cases x <;> simp [isNil, isTrue]
  rintro rfl
  decide

/-- `nil` and `true` come first, as cells and as symbols. -/
theorem sign_labelOf (x y : Cell) : sign (labelOf rt x) (labelOf rt y) =
    if isNil x then (if isNil y then 0 else -1)
    else if isTrue x then (if isTrue y then 0 else if isNil y then 1 else -1)
    else if isNil y || isTrue y then 1
    else sign (plainLabel rt x) (plainLabel rt y) := by
  obtain ⟨r, n, b, c, s, hr, hx⟩ := plainLabel_rank rt x
  obtain ⟨r', n', b', c', s', hr', hy⟩ := plainLabel_rank rt y
  unfold labelOf
  cases hxn : isNil x
  · cases hxt : isTrue x
    · cases hyn : isNil y
      · cases hyt : isTrue y
        · rfl
        · simp only [Bool.false_eq_true, if_false, if_true, Bool.or_true, hx]
          exact sign_rank' (by omega) ..
      · simp only [Bool.false_eq_true, if_false, if_true, Bool.true_or, hx]
        exact sign_rank' (by omega) ..
    · cases hyn : isNil y
      · cases hyt : isTrue y
        · simp only [Bool.false_eq_true, if_false, if_true, hy]
          exact sign_rank (by omega) ..
        · simp
      · cases hyt : isTrue y
        · simp only [Bool.false_eq_true, if_false, if_true]
          exact sign_rank' (by omega) ..
        · exact absurd ⟨hyn, hyt⟩ (not_nil_and_true y)
  · cases hyn : isNil y
    · cases hyt : isTrue y
      · simp only [Bool.false_eq_true, if_false, if_true, hy]
        exact sign_rank (by omega) ..
      · simp only [Bool.false_eq_true, if_false, if_true]
        exact sign_rank (by omega) ..
    · simp

theorem compareSymbols_sign (s t : Symbol) :
    compareSymbols (.symbol s) (.symbol t) =
      sign (labelOf rt (.symbol s)) (labelOf rt (.symbol t)) := by
  rw [sign_labelOf, compareSymbols]
  simp only [plainLabel, sign_cellLabel, sign_self, ne_eq, not_true_eq_false, if_false,
    strcmp_sign, symbolNames]

section Numbers

theorem directFloat_long {f : Binary64} {n : Word} (h : Comparable rt A) (hf : .float f ∈ A)
    (hn : .long n ∈ A) : (getDirectFloat rt (.long n)).isNaN = false ∧
      (getDirectFloat rt (.long n)).scaled = n.toInt * 2 ^ 1074 :=
  ⟨Binary64.isNaN_ofInt n.toInt, h.floatLong f n hf hn⟩

theorem directFloat_bigint {f : Binary64} {b : Bigint} (h : Comparable rt A)
    (hf : .float f ∈ A) (hb : .bigint b ∈ A) :
    (getDirectFloat rt (.bigint b)).isNaN = false ∧
      (getDirectFloat rt (.bigint b)).scaled = b.toInt * 2 ^ 1074 :=
  ⟨h.bigint f b hf hb, h.floatBigint f b hf hb⟩

theorem directFloat_float {f : Binary64} (h : Comparable rt A) (hf : .float f ∈ A) :
    (getDirectFloat rt (.float f)).isNaN = false := h.number f hf

theorem compareInts_long_bigint {n : Word} {b : Bigint} (h : Convertible rt A)
    (hn : .long n ∈ A) (hb : .bigint b ∈ A) :
    compareInts rt (.long n) (.bigint b) = .value (sign n.toInt b.toInt) := by
  obtain ⟨w, hw, htoInt⟩ := h.bigintToLong n b hn hb
  simp only [compareInts, getInteger64, hw, Option.elim_some, Outcome.value_bind,
    Outcome.pure_eq, compareWords_eq, htoInt]

theorem compareInts_bigint_long {n : Word} {b : Bigint} (h : Convertible rt A)
    (hn : .long n ∈ A) (hb : .bigint b ∈ A) :
    compareInts rt (.bigint b) (.long n) = .value (sign b.toInt n.toInt) := by
  obtain ⟨hcanonical, htoInt⟩ := h.longToBigint n b hn hb
  simp only [compareInts, getBigintSizeDirect, Outcome.value_bind, Outcome.pure_eq,
    cmpBigint_sign (h.canonical b hb) hcanonical, htoInt]

theorem sign_number (m n : ℤ) :
    sign (cellLabel 2 m [] "" "") (cellLabel 2 n [] "" "") = sign m n := by
  simp only [sign_cellLabel, sign_self, ne_eq, not_true_eq_false, if_false]
  split
  · rfl
  · rename_i hzero
    exact (not_not.1 hzero).symm

/-- Numbers are compared as integers in units of the smallest `double`. -/
theorem compare_numbers (h : Comparable rt A) (hx : x ∈ A) (hy : y ∈ A)
    (hxn : isNumber x = true) (hyn : isNumber y = true) :
    compareCells rt x y = .value (sign (plainLabel rt x) (plainLabel rt y)) := by
  have hfloat : ∀ {x y : Cell}, (getDirectFloat rt x).isNaN = false →
      (getDirectFloat rt y).isNaN = false → compareFloats rt x y =
        sign (getDirectFloat rt x).scaled (getDirectFloat rt y).scaled := compareFloats_eq
  cases x with
  | long m =>
      cases y with
      | long n =>
          rw [plainLabel, plainLabel, sign_number, sign_scale]
          rfl
      | bigint b =>
          rw [plainLabel, plainLabel, sign_number, sign_scale,
            ← compareInts_long_bigint h.toConvertible hx hy]
          rfl
      | float f =>
          obtain ⟨hnan, hscaled⟩ := directFloat_long h hy hx
          rw [plainLabel, plainLabel, sign_number, ← hscaled]
          exact congrArg _ (hfloat hnan (directFloat_float h hy))
      | _ => contradiction
  | bigint b =>
      cases y with
      | long n =>
          rw [plainLabel, plainLabel, sign_number, sign_scale,
            ← compareInts_bigint_long h.toConvertible hy hx]
          rfl
      | bigint c =>
          rw [plainLabel, plainLabel, sign_number, sign_scale,
            ← cmpBigint_sign (h.canonical b hx) (h.canonical c hy)]
          rfl
      | float f =>
          obtain ⟨hnan, hscaled⟩ := directFloat_bigint h hy hx
          rw [plainLabel, plainLabel, sign_number, ← hscaled]
          exact congrArg _ (hfloat hnan (directFloat_float h hy))
      | _ => contradiction
  | float f =>
      cases y with
      | long n =>
          obtain ⟨hnan, hscaled⟩ := directFloat_long h hx hy
          rw [plainLabel, plainLabel, sign_number, ← hscaled]
          exact congrArg _ (hfloat (directFloat_float h hx) hnan)
      | bigint b =>
          obtain ⟨hnan, hscaled⟩ := directFloat_bigint h hx hy
          rw [plainLabel, plainLabel, sign_number, ← hscaled]
          exact congrArg _ (hfloat (directFloat_float h hx) hnan)
      | float g =>
          rw [plainLabel, plainLabel, sign_number]
          exact congrArg _ (hfloat (directFloat_float h hx) (directFloat_float h hy))
      | _ => contradiction
  | _ => contradiction

end Numbers

section Types

/-- The cells `compareCells` is made for. -/
def isComparable : Cell → Bool
  | .quote _ | .expression _ | .lambda _ _ | .fexpr _ | .array _ => true
  | x => isScalar x

theorem compareCells_of_types (h : compareType x ≠ compareType y) :
    compareCells rt x y = compareTypes rt x y := by
  cases x <;> cases y <;> first | rfl | exact absurd rfl h

/-- The order by type. -/
def typeOrder (x y : Cell) : Int :=
  if compareType x < compareType y then -1 else if compareType y < compareType x then 1 else 0

/-- The order by type, but by name for a symbol and a context. -/
def nameOrder : Cell → Cell → Int
  | .symbol s, .context t => strcmp s.name t.name
  | .context s, .symbol t => strcmp s.name t.name
  | x, y => typeOrder x y

/-- The order of `compareTypes` on cells that are not both numbers and not both symbols. -/
def mixedOrder (x y : Cell) : Int :=
  if isNil x then (if isNil y then 0 else -1)
  else if isTrue x then (if isTrue y then 0 else if isNil y then 1 else -1)
  else if isNil y || isTrue y then 1
  else nameOrder x y

theorem nameOrder_eq (hmixed : ∀ s c, ¬ (x = .symbol s ∧ y = .context c) ∧
    ¬ (x = .context c ∧ y = .symbol s)) : nameOrder x y = typeOrder x y := by
  unfold nameOrder
  split
  · exact absurd ⟨rfl, rfl⟩ (hmixed _ _).1
  · exact absurd ⟨rfl, rfl⟩ (hmixed _ _).2
  · rfl

theorem isNumber_eq (x : Cell) : isNumber x = (isInt x || isFloat x) := by
  cases x <;> rfl

theorem compareTypes_eq (hnumbers : ¬ (isNumber x = true ∧ isNumber y = true))
    (hsymbols : ¬ (isSymbol x = true ∧ isSymbol y = true)) :
    compareTypes rt x y = .value (mixedOrder x y) := by
  have hfloat : (isFloat x && isInt y || isInt x && isFloat y) = false := by
    rw [isNumber_eq, isNumber_eq] at hnumbers
    revert hnumbers
    cases isFloat x <;> cases isInt x <;> cases isFloat y <;> cases isInt y <;> simp
  have hint : (isInt x && isInt y) = false := by
    rw [isNumber_eq, isNumber_eq] at hnumbers
    revert hnumbers
    cases isInt x <;> cases isInt y <;> simp
  have hsymbol : (isSymbol x && isSymbol y) = false := by
    revert hsymbols
    cases isSymbol x <;> cases isSymbol y <;> simp
  unfold compareTypes mixedOrder
  rw [hfloat, hint, hsymbol]
  simp only [Bool.false_eq_true, if_false]
  cases isNil x
  · cases isTrue x
    · cases isNil y || isTrue y
      · simp only [Bool.false_eq_true, if_false]
        split
        · rfl
        · rfl
        · rename_i hsymbol hcontext
          rw [nameOrder_eq fun s c => ⟨fun hs => hsymbol s c hs.1 hs.2,
            fun hs => hcontext c s hs.1 hs.2⟩]
          rfl
      · rfl
    · rfl
  · rfl

theorem typeOrder_swap (x y : Cell) : typeOrder y x = -typeOrder x y := by
  unfold typeOrder
  split_ifs with hlt hgt
  · omega
  · rfl
  · rfl
  · rfl

theorem strcmp_swap (l r : String) : strcmp r l = -strcmp l r := by
  rw [strcmp_sign, strcmp_sign, sign_swap]

theorem nameOrder_swap (x y : Cell) : nameOrder y x = -nameOrder x y := by
  by_cases hsymbol : ∃ s c, x = .symbol s ∧ y = .context c
  · obtain ⟨s, c, rfl, rfl⟩ := hsymbol
    exact strcmp_swap s.name c.name
  · by_cases hcontext : ∃ s c, x = .context c ∧ y = .symbol s
    · obtain ⟨s, c, rfl, rfl⟩ := hcontext
      exact strcmp_swap c.name s.name
    · rw [nameOrder_eq fun s c => ⟨fun h => hsymbol ⟨s, c, h⟩, fun h => hcontext ⟨s, c, h⟩⟩,
        nameOrder_eq fun s c => ⟨fun h => hcontext ⟨s, c, h.symm⟩,
          fun h => hsymbol ⟨s, c, h.symm⟩⟩, typeOrder_swap]

theorem mixedOrder_swap (x y : Cell) : mixedOrder y x = -mixedOrder x y := by
  have hx := not_nil_and_true x
  have hy := not_nil_and_true y
  have hname := nameOrder_swap x y
  unfold mixedOrder
  cases hxn : isNil x <;> cases hxt : isTrue x <;> cases hyn : isNil y <;>
    cases hyt : isTrue y <;> simp_all

theorem mixedOrder_bound (x y : Cell) : (mixedOrder x y).natAbs ≤ 1 := by
  have hname : (nameOrder x y).natAbs ≤ 1 := by
    unfold nameOrder strcmp typeOrder
    split <;> split_ifs <;> decide
  unfold mixedOrder
  split_ifs <;> first
    | exact hname
    | decide

theorem not_nil_or_true {s : Symbol} (hnil : isNil (.symbol s) = false)
    (htrue : isTrue (.symbol s) = false) : ¬ (s = nilSymbol ∨ s = trueSymbol) := by
  rintro (rfl | rfl)
  · exact Bool.noConfusion hnil
  · exact Bool.noConfusion htrue

/-- The rank of a cell that is not `nil` or `true`. -/
def typeRank (x : Cell) : ℕ := if isNumber x then 2 else (compareType x).toNat

theorem plainLabel_eq (rt : Runtime) (hx : isComparable x = true) (hnil : isNil x = false)
    (htrue : isTrue x = false) : ∃ number bytes context name,
      plainLabel rt x = cellLabel (typeRank x) number bytes context name := by
  cases x <;> first
    | exact ⟨_, _, _, _, rfl⟩
    | contradiction

theorem compareType_number (hx : isNumber x = true) : compareType x = 2 ∨ compareType x = 3 := by
  cases x <;> first
    | contradiction
    | exact .inl rfl
    | exact .inr rfl

theorem compareType_other (hx : isNumber x = false) (hnil : isNil x = false)
    (htrue : isTrue x = false) : 4 ≤ compareType x := by
  cases x <;> first
    | contradiction
    | simp [compareType]

theorem typeRank_lt (hx : isNil x = false ∧ isTrue x = false)
    (hy : isNil y = false ∧ isTrue y = false)
    (hnumbers : ¬ (isNumber x = true ∧ isNumber y = true))
    (h : compareType x < compareType y) : typeRank x < typeRank y := by
  unfold typeRank
  cases hxn : isNumber x
  · have hlow := compareType_other hxn hx.1 hx.2
    cases hyn : isNumber y
    · simp only [Bool.false_eq_true, if_false]
      omega
    · have hhigh := compareType_number hyn
      omega
  · cases hyn : isNumber y
    · have hhigh := compareType_other hyn hy.1 hy.2
      simp only [Bool.false_eq_true, if_false, if_true]
      omega
    · exact absurd ⟨hxn, hyn⟩ hnumbers

theorem not_both_symbols (hx : isComparable x = true) (hy : isComparable y = true)
    (htype : compareType x ≠ compareType y) : ¬ (isSymbol x = true ∧ isSymbol y = true) := by
  rintro ⟨hxs, hys⟩
  cases x <;> first
    | contradiction
    | cases y <;> contradiction

theorem isComparable_of_atom (hx : isScalar x = true) : isComparable x = true := by
  cases x <;> first
    | rfl
    | contradiction

/-- Cells of two types that are not both numbers and no symbol with a context. -/
theorem compare_types (hx : isComparable x = true) (hy : isComparable y = true)
    (htype : compareType x ≠ compareType y)
    (hnumbers : ¬ (isNumber x = true ∧ isNumber y = true))
    (hmixed : ∀ s c, x = .symbol s ∧ y = .context c ∨ x = .context c ∧ y = .symbol s →
      s = nilSymbol ∨ s = trueSymbol) :
    compareCells rt x y = .value (sign (labelOf rt x) (labelOf rt y)) := by
  have hsymbols := not_both_symbols hx hy htype
  rw [compareCells_of_types htype, compareTypes_eq hnumbers hsymbols, sign_labelOf, mixedOrder]
  cases hxn : isNil x
  · cases hxt : isTrue x
    · cases hyn : isNil y
      · cases hyt : isTrue y
        · simp only [Bool.false_eq_true, if_false, Bool.or_self]
          obtain ⟨n, b, c, s, hxl⟩ := plainLabel_eq rt hx hxn hxt
          obtain ⟨n', b', c', s', hyl⟩ := plainLabel_eq rt hy hyn hyt
          have hname : nameOrder x y = typeOrder x y := by
            apply nameOrder_eq
            intro s c
            constructor
            · rintro ⟨rfl, rfl⟩
              exact not_nil_or_true hxn hxt (hmixed s c (.inl ⟨rfl, rfl⟩))
            · rintro ⟨rfl, rfl⟩
              exact not_nil_or_true hyn hyt (hmixed s c (.inr ⟨rfl, rfl⟩))
          rw [hxl, hyl, hname, typeOrder]
          rcases lt_or_gt_of_ne htype with hlt | hgt
          · have hrank := typeRank_lt ⟨hxn, hxt⟩ ⟨hyn, hyt⟩ hnumbers hlt
            rw [if_pos hlt, sign_rank hrank]
          · have hrank := typeRank_lt ⟨hyn, hyt⟩ ⟨hxn, hxt⟩ (fun hn => hnumbers hn.symm) hgt
            rw [if_neg hgt.not_gt, if_pos hgt, sign_rank' hrank]
        · rfl
      · rfl
    · rfl
  · rfl

end Types

theorem compareContexts_sign (s t : Symbol) :
    compareWords (rt.symbolAddress s) (rt.symbolAddress t) =
      sign (labelOf rt (.context s)) (labelOf rt (.context t)) := by
  rw [sign_labelOf]
  simp only [isNil, isTrue, Bool.false_eq_true, Bool.or_self, if_false, plainLabel,
    sign_cellLabel, sign_self, ne_eq, not_true_eq_false, compareWords_eq]
  split
  · rfl
  · rename_i hzero
    exact not_not.1 hzero

theorem compareBytes_sign {l r : List UInt8} (hl : l.length < r.length + 2 ^ 31)
    (hr : r.length < l.length + 2 ^ 31) :
    compareStrings l r = .value (sign (labelOf rt (.string l)) (labelOf rt (.string r))) := by
  rw [sign_labelOf, compareStrings_sign hl hr]
  refine congrArg _ ?_
  simp only [isNil, isTrue, Bool.false_eq_true, Bool.or_self, if_false, plainLabel,
    sign_cellLabel, sign_self, ne_eq, not_true_eq_false]
  split
  · rfl
  · rename_i hzero
    exact not_not.1 hzero

/-- Two cells of one type that are not numbers. -/
theorem compare_same_type (h : Convertible rt A) (hx : x ∈ A) (hy : y ∈ A)
    (htype : compareType x = compareType y)
    (hnumbers : ¬ (isNumber x = true ∧ isNumber y = true)) :
    compareCells rt x y = .value (sign (labelOf rt x) (labelOf rt y)) := by
  have hscalar := h.atom x hx
  cases x with
  | nil =>
      cases y with
      | nil => simp [compareCells]
      | _ => exact absurd htype (by simp [compareType])
  | true_ =>
      cases y with
      | true_ => simp [compareCells]
      | _ => exact absurd htype (by simp [compareType])
  | string l =>
      cases y with
      | string r =>
          rw [compareCells, compareBytes_sign (h.string l r hx hy) (h.string r l hy hx)]
      | _ => exact absurd htype (by simp [compareType])
  | symbol s =>
      cases y with
      | symbol t => rw [compareCells, compareSymbols_sign]
      | _ => exact absurd htype (by simp [compareType])
  | context s =>
      cases y with
      | context t => rw [compareCells, compareContexts_sign]
      | _ => exact absurd htype (by simp [compareType])
  | long n =>
      cases y with
      | long m => exact absurd ⟨rfl, rfl⟩ hnumbers
      | bigint b => exact absurd ⟨rfl, rfl⟩ hnumbers
      | _ => exact absurd htype (by simp [compareType])
  | bigint b =>
      cases y with
      | long m => exact absurd ⟨rfl, rfl⟩ hnumbers
      | bigint b => exact absurd ⟨rfl, rfl⟩ hnumbers
      | _ => exact absurd htype (by simp [compareType])
  | float f =>
      cases y with
      | float g => exact absurd ⟨rfl, rfl⟩ hnumbers
      | _ => exact absurd htype (by simp [compareType])
  | _ => contradiction

/-- Two cells that are no lists and no arrays. -/
theorem compare_atoms (h : Comparable rt A) (hx : x ∈ A) (hy : y ∈ A) :
    compareCells rt x y = .value (sign (labelOf rt x) (labelOf rt y)) := by
  have hxa := h.atom x hx
  have hya := h.atom y hy
  by_cases hnumbers : isNumber x = true ∧ isNumber y = true
  · have hnil : ∀ z, isNumber z = true → isNil z = false ∧ isTrue z = false := by
      intro z hz
      cases z <;> first
        | contradiction
        | exact ⟨rfl, rfl⟩
    rw [compare_numbers h hx hy hnumbers.1 hnumbers.2, sign_labelOf]
    simp [hnil x hnumbers.1, hnil y hnumbers.2]
  by_cases htype : compareType x = compareType y
  · exact compare_same_type h.toConvertible hx hy htype hnumbers
  · apply compare_types (isComparable_of_atom hxa) (isComparable_of_atom hya) htype hnumbers
    rintro s c (⟨rfl, rfl⟩ | ⟨rfl, rfl⟩)
    · exact h.symbolContext s c hx hy
    · exact h.symbolContext s c hy hx

end Atoms

section Cells

variable {rt : Runtime} {A : Set Cell} {x y : Cell}

theorem isComparable_of_atoms (h : Convertible rt A) (hx : ∀ z ∈ atomsOf x, z ∈ A) :
    isComparable x = true := by
  have hself : x ∈ atomsOf x → isScalar x = true := fun hmem => h.atom x (hx x hmem)
  cases x <;> first
    | rfl
    | exact hself (by simp [atomsOf])

theorem compareType_branch (hx : isComparable x = true) (hbranch : isScalar x = false)
    (hy : isScalar y = true) : compareType x ≠ compareType y := by
  cases x <;> first
    | contradiction
    | cases y <;> first
        | contradiction
        | simp [compareType]

theorem childrenOf_atom (hx : isScalar x = true) : childrenOf rt x = [] := by
  cases x <;> first
    | rfl
    | contradiction

theorem atomsOf_atom (hx : isScalar x = true) : atomsOf x = [x] := by
  cases x <;> first
    | rfl
    | contradiction

/-- A cell that is not `nil` or `true` and one of another type have different labels. -/
theorem sign_label_ne_zero (hx : isComparable x = true) (hy : isComparable y = true)
    (hplain : isNil x = false ∧ isTrue x = false)
    (hnumbers : ¬ (isNumber x = true ∧ isNumber y = true))
    (htype : compareType x ≠ compareType y) : sign (labelOf rt x) (labelOf rt y) ≠ 0 := by
  rw [sign_labelOf, hplain.1, hplain.2]
  cases hyn : isNil y
  · cases hyt : isTrue y
    · obtain ⟨n, b, c, s, hxl⟩ := plainLabel_eq rt hx hplain.1 hplain.2
      obtain ⟨n', b', c', s', hyl⟩ := plainLabel_eq rt hy hyn hyt
      simp only [Bool.false_eq_true, Bool.or_self, if_false, hxl, hyl]
      rcases lt_or_gt_of_ne htype with hlt | hgt
      · rw [sign_rank (typeRank_lt hplain ⟨hyn, hyt⟩ hnumbers hlt)]
        decide
      · rw [sign_rank' (typeRank_lt ⟨hyn, hyt⟩ hplain (fun hn => hnumbers hn.symm) hgt)]
        decide
    · simp
  · simp

/-- A list, an array or a quoted cell, and a cell of another type. -/
theorem compare_branch (hx : isComparable x = true) (hy : isComparable y = true)
    (hbranch : isScalar x = false ∨ isScalar y = false) (htype : compareType x ≠ compareType y) :
    compareCells rt x y = .value (order (treeOf rt x) (treeOf rt y)) := by
  have hplain : ∀ z, isScalar z = false → isNil z = false ∧ isTrue z = false ∧
      isNumber z = false ∧ (∀ s, z ≠ .symbol s) ∧ ∀ s, z ≠ .context s := by
    intro z hz
    cases z <;> first
      | contradiction
      | exact ⟨rfl, rfl, rfl, by simp, by simp⟩
  have hnumbers : ¬ (isNumber x = true ∧ isNumber y = true) := by
    rintro ⟨hxn, hyn⟩
    rcases hbranch with hb | hb
    · exact Bool.noConfusion ((hplain x hb).2.2.1.symm.trans hxn)
    · exact Bool.noConfusion ((hplain y hb).2.2.1.symm.trans hyn)
  have hmixed : ∀ s c, x = .symbol s ∧ y = .context c ∨ x = .context c ∧ y = .symbol s →
      s = nilSymbol ∨ s = trueSymbol := by
    rintro s c (⟨rfl, rfl⟩ | ⟨rfl, rfl⟩)
    · rcases hbranch with hb | hb <;> contradiction
    · rcases hbranch with hb | hb <;> contradiction
  have hsign : sign (labelOf rt x) (labelOf rt y) ≠ 0 := by
    rcases hbranch with hb | hb
    · exact sign_label_ne_zero hx hy ⟨(hplain x hb).1, (hplain x hb).2.1⟩ hnumbers htype
    · rw [sign_swap (labelOf rt y), ne_eq, neg_eq_zero]
      exact sign_label_ne_zero hy hx ⟨(hplain y hb).1, (hplain y hb).2.1⟩
        (fun hn => hnumbers hn.symm) htype.symm
  rw [compare_types hx hy htype hnumbers hmixed, treeOf, treeOf, order, if_pos hsign]

theorem compare_atom (h : Comparable rt A) (hx : isScalar x = true)
    (hxs : ∀ z ∈ atomsOf x, z ∈ A) (hys : ∀ z ∈ atomsOf y, z ∈ A) :
    compareCells rt x y = .value (order (treeOf rt x) (treeOf rt y)) := by
  cases hy : isScalar y
  · refine compare_branch (isComparable_of_atoms h.toConvertible hxs)
      (isComparable_of_atoms h.toConvertible hys) (.inr hy) ?_
    exact (compareType_branch (isComparable_of_atoms h.toConvertible hys) hy hx).symm
  · have hxA : x ∈ A := hxs x (by simp [atomsOf_atom hx])
    have hyA : y ∈ A := hys y (by simp [atomsOf_atom hy])
    rw [compare_atoms h hxA hyA, treeOf, treeOf, order, childrenOf_atom hx,
      childrenOf_atom hy, orderAll]
    split
    · rfl
    · rename_i hzero
      rw [not_not.1 hzero]

theorem order_same_label (h : labelOf rt x = labelOf rt y) :
    order (treeOf rt x) (treeOf rt y) = orderAll (childrenOf rt x) (childrenOf rt y) := by
  rw [treeOf, treeOf, h, order, sign_self, if_neg (not_not.2 rfl)]

theorem sign_arrays (l r : List Cell) : sign (labelOf rt (.array l)) (labelOf rt (.array r)) =
    if l.length < r.length then -1 else if r.length < l.length then 1 else 0 := by
  rw [sign_labelOf]
  simp only [isNil, isTrue, Bool.false_eq_true, Bool.or_self, if_false, plainLabel,
    sign_cellLabel, sign_self, ne_eq, not_true_eq_false]
  split
  · simp [sign]
  · rename_i hzero
    have hlength : l.length = r.length := by
      exact_mod_cast sign_eq_zero_iff.1 (not_not.1 hzero)
    simp [hlength]

mutual

/-- `compareCells` is the order of the trees. -/
theorem compareCells_order (h : Comparable rt A) : ∀ x y : Cell,
    (∀ z ∈ atomsOf x, z ∈ A) → (∀ z ∈ atomsOf y, z ∈ A) →
    compareCells rt x y = .value (order (treeOf rt x) (treeOf rt y))
  | .quote l, y, hx, hy => by
      cases y with
      | quote r =>
          have ih := compareCells_order h l r hx hy
          have hlabel : labelOf rt (.quote l) = labelOf rt (.quote r) := rfl
          rw [compareCells, ih, order_same_label hlabel, childrenOf, childrenOf, orderAll,
            orderAll]
          simp only [treeOf]
          split
          · rfl
          · rename_i hzero
            rw [not_not.1 hzero]
      | _ =>
          exact compare_branch rfl (isComparable_of_atoms h.toConvertible hy) (.inl rfl)
            (by simp [compareType])
  | .expression l, y, hx, hy => by
      cases y with
      | expression r =>
          have hlabel : labelOf rt (.expression l) = labelOf rt (.expression r) := rfl
          rw [compareCells, compareLists_order h l r hx hy, order_same_label hlabel, childrenOf,
            childrenOf]
      | _ =>
          exact compare_branch rfl (isComparable_of_atoms h.toConvertible hy) (.inl rfl)
            (by simp [compareType])
  | .lambda s l, y, hx, hy => by
      cases y with
      | lambda t r =>
          have hlabel : labelOf rt (.lambda s l) = labelOf rt (.lambda t r) := rfl
          rw [compareCells, compareLists_order h l r hx hy, order_same_label hlabel, childrenOf,
            childrenOf]
      | _ =>
          exact compare_branch rfl (isComparable_of_atoms h.toConvertible hy) (.inl rfl)
            (by simp [compareType])
  | .fexpr l, y, hx, hy => by
      cases y with
      | fexpr r =>
          have hlabel : labelOf rt (.fexpr l) = labelOf rt (.fexpr r) := rfl
          rw [compareCells, compareLists_order h l r hx hy, order_same_label hlabel, childrenOf,
            childrenOf]
      | _ =>
          exact compare_branch rfl (isComparable_of_atoms h.toConvertible hy) (.inl rfl)
            (by simp [compareType])
  | .array l, y, hx, hy => by
      cases y with
      | array r =>
          rw [compareCells, compareLists_order h l r hx hy, treeOf, treeOf, order, sign_arrays,
            childrenOf, childrenOf]
          split
          · rfl
          · split <;> rfl
      | _ =>
          exact compare_branch rfl (isComparable_of_atoms h.toConvertible hy) (.inl rfl)
            (by simp [compareType])
  | .nil, _, hx, hy => compare_atom h rfl hx hy
  | .true_, _, hx, hy => compare_atom h rfl hx hy
  | .long _, _, hx, hy => compare_atom h rfl hx hy
  | .bigint _, _, hx, hy => compare_atom h rfl hx hy
  | .float _, _, hx, hy => compare_atom h rfl hx hy
  | .string _, _, hx, hy => compare_atom h rfl hx hy
  | .symbol _, _, hx, hy => compare_atom h rfl hx hy
  | .context _, _, hx, hy => compare_atom h rfl hx hy
  | .primitive _, _, hx, hy => compare_atom h (h.atom _ (hx _ (by simp [atomsOf]))) hx hy
  | .dynSymbol _ _, _, hx, hy => compare_atom h (h.atom _ (hx _ (by simp [atomsOf]))) hx hy

theorem compareLists_order (h : Comparable rt A) : ∀ ls rs : List Cell,
    (∀ z ∈ atomsOfAll ls, z ∈ A) → (∀ z ∈ atomsOfAll rs, z ∈ A) →
    compareLists rt ls rs = .value (orderAll (treesOf rt ls) (treesOf rt rs))
  | [], [], _, _ => by rw [compareLists, treesOf, orderAll]
  | [], _ :: _, _, _ => by rw [compareLists, treesOf, treesOf, orderAll]
  | _ :: _, [], _, _ => by rw [compareLists, treesOf, treesOf, orderAll]
  | l :: ls, r :: rs, hls, hrs => by
      have ih := compareCells_order h l r (fun z hz => hls z (by simp [atomsOfAll, hz]))
        (fun z hz => hrs z (by simp [atomsOfAll, hz]))
      have ihs := compareLists_order h ls rs (fun z hz => hls z (by simp [atomsOfAll, hz]))
        (fun z hz => hrs z (by simp [atomsOfAll, hz]))
      rw [compareLists, ih, ihs, treesOf, treesOf, orderAll]
      simp only [treeOf, Outcome.value_bind, Outcome.pure_eq]
      split <;> rfl

end

end Cells

section Swap

variable {rt : Runtime} {A : Set Cell} {x y : Cell}

/-- The comparison raises no error and has the opposite result the other way round. -/
def Swaps (rt : Runtime) (x y : Cell) : Prop :=
  ∃ v : Int, compareCells rt x y = .value v ∧ compareCells rt y x = .value (-v) ∧ v.natAbs ≤ 1

theorem sign_bound {α : Type} [LinearOrder α] (a b : α) : (sign a b).natAbs ≤ 1 := by
  unfold sign
  split_ifs <;> decide

theorem swaps_of_sign {α : Type} [LinearOrder α] {a b : α}
    (hxy : compareCells rt x y = .value (sign a b))
    (hyx : compareCells rt y x = .value (sign b a)) : Swaps rt x y :=
  ⟨sign a b, hxy, by rw [hyx, sign_swap a b], sign_bound a b⟩

theorem Swaps.symm (h : Swaps rt x y) : Swaps rt y x := by
  obtain ⟨v, hxy, hyx, hv⟩ := h
  refine ⟨-v, hyx, ?_, by rwa [Int.natAbs_neg]⟩
  rw [hxy, neg_neg]

theorem Swaps.self (h : Swaps rt x x) : compareCells rt x x = .value 0 := by
  obtain ⟨v, hxy, hyx, -⟩ := h
  have hv : v = -v := Outcome.value.inj (hxy.symm.trans hyx)
  rw [hxy, show v = 0 by omega]

/-- A number as a `double` is no NaN. -/
theorem directFloat_number {f : Binary64} (h : Convertible rt A) (hf : .float f ∈ A)
    (hx : x ∈ A) (hxn : isNumber x = true) : (getDirectFloat rt x).isNaN = false := by
  cases x with
  | long n => exact Binary64.isNaN_ofInt n.toInt
  | bigint b => exact h.bigint f b hf hx
  | float g => exact h.number g hx
  | _ => contradiction

theorem swaps_float (hx : (getDirectFloat rt x).isNaN = false)
    (hy : (getDirectFloat rt y).isNaN = false)
    (hxy : compareCells rt x y = .value (compareFloats rt x y))
    (hyx : compareCells rt y x = .value (compareFloats rt y x)) : Swaps rt x y :=
  swaps_of_sign (hxy.trans (congrArg _ (compareFloats_eq hx hy)))
    (hyx.trans (congrArg _ (compareFloats_eq hy hx)))

theorem swaps_numbers (h : Convertible rt A) (hx : x ∈ A) (hy : y ∈ A)
    (hxn : isNumber x = true) (hyn : isNumber y = true) : Swaps rt x y := by
  have hmixed : ∀ {n b}, .long n ∈ A → .bigint b ∈ A → Swaps rt (.long n) (.bigint b) :=
    fun hn hb => swaps_of_sign (compareInts_long_bigint h hn hb) (compareInts_bigint_long h hn hb)
  cases x with
  | long n =>
      cases y with
      | long m => exact swaps_of_sign (compareCells_long rt n m) (compareCells_long rt m n)
      | bigint b => exact hmixed hx hy
      | float f =>
          exact swaps_float (directFloat_number h hy hx hxn) (directFloat_number h hy hy hyn)
            rfl rfl
      | _ => contradiction
  | bigint b =>
      cases y with
      | long n => exact (hmixed hy hx).symm
      | bigint c =>
          exact swaps_of_sign
            (congrArg _ (cmpBigint_sign (h.canonical b hx) (h.canonical c hy)))
            (congrArg _ (cmpBigint_sign (h.canonical c hy) (h.canonical b hx)))
      | float f =>
          exact swaps_float (directFloat_number h hy hx hxn) (directFloat_number h hy hy hyn)
            rfl rfl
      | _ => contradiction
  | float f =>
      have hfx := directFloat_number h hx hx hxn
      have hfy := directFloat_number h hx hy hyn
      cases y with
      | long n => exact swaps_float hfx hfy rfl rfl
      | bigint b => exact swaps_float hfx hfy rfl rfl
      | float g => exact swaps_float hfx hfy rfl rfl
      | _ => contradiction
  | _ => contradiction

theorem swaps_types (htype : compareType x ≠ compareType y)
    (hx : isComparable x = true) (hy : isComparable y = true)
    (hnumbers : ¬ (isNumber x = true ∧ isNumber y = true)) : Swaps rt x y := by
  have hsymbols : ¬ (isSymbol x = true ∧ isSymbol y = true) :=
    not_both_symbols hx hy htype
  refine ⟨mixedOrder x y, ?_, ?_, mixedOrder_bound x y⟩
  · rw [compareCells_of_types htype, compareTypes_eq hnumbers hsymbols]
  · rw [compareCells_of_types htype.symm,
      compareTypes_eq (fun hn => hnumbers hn.symm) (fun hs => hsymbols hs.symm), mixedOrder_swap]

theorem swaps_atoms (h : Convertible rt A) (hx : x ∈ A) (hy : y ∈ A) : Swaps rt x y := by
  have hxa := h.atom x hx
  have hya := h.atom y hy
  by_cases hnumbers : isNumber x = true ∧ isNumber y = true
  · exact swaps_numbers h hx hy hnumbers.1 hnumbers.2
  by_cases htype : compareType x = compareType y
  · exact swaps_of_sign (compare_same_type h hx hy htype hnumbers)
      (compare_same_type h hy hx htype.symm fun hn => hnumbers hn.symm)
  · exact swaps_types htype (isComparable_of_atom hxa) (isComparable_of_atom hya) hnumbers

theorem swaps_branch (h : Convertible rt A) (hx : ∀ z ∈ atomsOf x, z ∈ A)
    (hy : ∀ z ∈ atomsOf y, z ∈ A) (hbranch : isScalar x = false)
    (htype : compareType x ≠ compareType y) : Swaps rt x y := by
  refine swaps_types htype (isComparable_of_atoms h hx) (isComparable_of_atoms h hy) ?_
  rintro ⟨hxn, -⟩
  cases x <;> contradiction

theorem swaps_atom (h : Convertible rt A) (hx : isScalar x = true)
    (hxs : ∀ z ∈ atomsOf x, z ∈ A) (hys : ∀ z ∈ atomsOf y, z ∈ A) : Swaps rt x y := by
  cases hy : isScalar y
  · exact (swaps_branch h hys hxs hy
      (compareType_branch (isComparable_of_atoms h hys) hy hx)).symm
  · exact swaps_atoms h (hxs x (by simp [atomsOf_atom hx])) (hys y (by simp [atomsOf_atom hy]))

mutual

theorem swaps_cells (h : Convertible rt A) : ∀ x y : Cell,
    (∀ z ∈ atomsOf x, z ∈ A) → (∀ z ∈ atomsOf y, z ∈ A) → Swaps rt x y
  | .quote l, y, hx, hy => by
      cases y with
      | quote r => exact swaps_cells h l r hx hy
      | _ => exact swaps_branch h hx hy rfl (by simp [compareType])
  | .expression l, y, hx, hy => by
      cases y with
      | expression r => exact swaps_lists h l r hx hy
      | _ => exact swaps_branch h hx hy rfl (by simp [compareType])
  | .lambda s l, y, hx, hy => by
      cases y with
      | lambda t r => exact swaps_lists h l r hx hy
      | _ => exact swaps_branch h hx hy rfl (by simp [compareType])
  | .fexpr l, y, hx, hy => by
      cases y with
      | fexpr r => exact swaps_lists h l r hx hy
      | _ => exact swaps_branch h hx hy rfl (by simp [compareType])
  | .array l, y, hx, hy => by
      cases y with
      | array r =>
          obtain ⟨v, hlr, hrl, hv⟩ := swaps_lists h l r hx hy
          rcases lt_trichotomy l.length r.length with hlt | heq | hgt
          · exact ⟨-1, by rw [compareCells, if_pos hlt],
              by rw [compareCells, if_neg hlt.not_gt, if_pos hlt]; rfl, by decide⟩
          · exact ⟨v, by simp [compareCells, heq, hlr], by simp [compareCells, heq, hrl], hv⟩
          · exact ⟨1, by rw [compareCells, if_neg hgt.not_gt, if_pos hgt],
              by rw [compareCells, if_pos hgt], by decide⟩
      | _ => exact swaps_branch h hx hy rfl (by simp [compareType])
  | .nil, _, hx, hy => swaps_atom h rfl hx hy
  | .true_, _, hx, hy => swaps_atom h rfl hx hy
  | .long _, _, hx, hy => swaps_atom h rfl hx hy
  | .bigint _, _, hx, hy => swaps_atom h rfl hx hy
  | .float _, _, hx, hy => swaps_atom h rfl hx hy
  | .string _, _, hx, hy => swaps_atom h rfl hx hy
  | .symbol _, _, hx, hy => swaps_atom h rfl hx hy
  | .context _, _, hx, hy => swaps_atom h rfl hx hy
  | .primitive _, _, hx, hy => swaps_atom h (h.atom _ (hx _ (by simp [atomsOf]))) hx hy
  | .dynSymbol _ _, _, hx, hy => swaps_atom h (h.atom _ (hx _ (by simp [atomsOf]))) hx hy

/-- The lists of two lists, with the result of their comparison the other way round. -/
theorem swaps_lists (h : Convertible rt A) : ∀ ls rs : List Cell,
    (∀ z ∈ atomsOfAll ls, z ∈ A) → (∀ z ∈ atomsOfAll rs, z ∈ A) →
    ∃ v : Int, compareLists rt ls rs = .value v ∧ compareLists rt rs ls = .value (-v) ∧
      v.natAbs ≤ 1
  | [], [], _, _ => ⟨0, by rw [compareLists], by rw [compareLists]; rfl, by decide⟩
  | [], _ :: _, _, _ => ⟨-1, by rw [compareLists], by rw [compareLists]; rfl, by decide⟩
  | _ :: _, [], _, _ => ⟨1, by rw [compareLists], by rw [compareLists], by decide⟩
  | l :: ls, r :: rs, hls, hrs => by
      obtain ⟨v, hlr, hrl, hv⟩ := swaps_cells h l r (fun z hz => hls z (by simp [atomsOfAll, hz]))
        (fun z hz => hrs z (by simp [atomsOfAll, hz]))
      rw [compareLists, compareLists, hlr, hrl]
      simp only [Outcome.value_bind, Outcome.pure_eq, ne_eq, neg_eq_zero]
      by_cases hzero : v = 0
      · simp only [hzero, not_true_eq_false, if_false]
        exact swaps_lists h ls rs (fun z hz => hls z (by simp [atomsOfAll, hz]))
          (fun z hz => hrs z (by simp [atomsOfAll, hz]))
      · simp only [hzero, not_false_eq_true, if_true]
        exact ⟨v, rfl, rfl, hv⟩

end

end Swap

section Preorder

variable {rt : Runtime} {a b c : Cell}

/-- `=` answers `true` for operands with these values. -/
def EqualCells (rt : Runtime) (a b : Cell) : Prop :=
  ∀ (ev : Evaluator) (σ σ₁ σ₂ : Interp) (p q : Cell) (left right : Val),
    ev σ p = .value (left, σ₁) → ev σ₁ q = .value (right, σ₂) →
    left.deref σ₂ = .value a → right.cell = b →
    compareOp rt ev .equal σ [p, q] = .value (.true_, σ₂)

theorem equal_of_compareCells (h : compareCells rt a b = .value 0) : EqualCells rt a b := by
  intro ev σ σ₁ σ₂ p q left right hp hq hleft hright
  rw [← hright] at h
  simp [compareOp, compareLoop, compareStop, hp, hq, hleft, h]

theorem compareCells_le_trans {A : Set Cell} (h : Comparable rt A)
    (ha : ∀ z ∈ atomsOf a, z ∈ A) (hb : ∀ z ∈ atomsOf b, z ∈ A)
    (hc : ∀ z ∈ atomsOf c, z ∈ A) {v w : Int} (hab : compareCells rt a b = .value v)
    (hbc : compareCells rt b c = .value w) (hv : v ≤ 0) (hw : w ≤ 0) :
    ∃ u, compareCells rt a c = .value u ∧ u ≤ 0 := by
  rw [compareCells_order h a b ha hb] at hab
  rw [compareCells_order h b c hb hc] at hbc
  refine ⟨_, compareCells_order h a c ha hc, order_le_trans (y := treeOf rt b) ?_ ?_⟩
  · rwa [Outcome.value.inj hab]
  · rwa [Outcome.value.inj hbc]

/-- `compareCells` raises no error, is antisymmetric and calls nothing equal that `=` does
not, and cells that are compared as they are it puts in a total preorder. -/
theorem compareCells_preorder (rt : Runtime) (a b c : Cell)
    (h : Convertible rt {z | z ∈ atomsOf a ∨ z ∈ atomsOf b ∨ z ∈ atomsOf c}) :
    compareCells rt a a = .value 0 ∧
    (∃ v : Int, compareCells rt a b = .value v ∧ compareCells rt b a = .value (-v) ∧
      v.natAbs ≤ 1) ∧
    (Exact rt {z | z ∈ atomsOf a ∨ z ∈ atomsOf b ∨ z ∈ atomsOf c} →
      ∀ v w, compareCells rt a b = .value v → compareCells rt b c = .value w →
        v ≤ 0 → w ≤ 0 → ∃ u, compareCells rt a c = .value u ∧ u ≤ 0) ∧
    (compareCells rt a b = .value 0 → EqualCells rt a b) := by
  have ha : ∀ z ∈ atomsOf a, z ∈ {z | z ∈ atomsOf a ∨ z ∈ atomsOf b ∨ z ∈ atomsOf c} :=
    fun z hz => .inl hz
  have hb : ∀ z ∈ atomsOf b, z ∈ {z | z ∈ atomsOf a ∨ z ∈ atomsOf b ∨ z ∈ atomsOf c} :=
    fun z hz => .inr (.inl hz)
  have hc : ∀ z ∈ atomsOf c, z ∈ {z | z ∈ atomsOf a ∨ z ∈ atomsOf b ∨ z ∈ atomsOf c} :=
    fun z hz => .inr (.inr hz)
  refine ⟨(swaps_cells h a a ha ha).self, swaps_cells h a b ha hb, ?_, equal_of_compareCells⟩
  intro hexact v w hab hbc
  exact compareCells_le_trans ⟨h, hexact⟩ ha hb hc hab hbc

/-- An integer, a float above it and a string. -/
theorem compareCells_preorder_values :
    ∃ u, compareCells exactRuntime (.long 1) (.string []) = .value u ∧ u ≤ 0 := by
  obtain ⟨-, -, htrans, -⟩ := compareCells_preorder exactRuntime (.long 1)
    (.float (Binary64.ofInt 2)) (.string [])
    { atom := by
        rintro x (hx | hx | hx) <;> rw [List.mem_singleton.1 hx] <;> rfl
      number := by
        rintro f (hf | hf | hf)
        · simp [atomsOf] at hf
        · rw [Cell.float.inj (List.mem_singleton.1 hf)]
          exact Binary64.isNaN_ofInt 2
        · simp [atomsOf] at hf
      string := by
        rintro l r (hl | hl | hl) (hr | hr | hr) <;> simp [atomsOf] at hl hr
        rw [hl, hr]
        decide
      bigint := by simp [atomsOf]
      canonical := by simp [atomsOf]
      longToBigint := by simp [atomsOf]
      bigintToLong := by simp [atomsOf] }
  refine htrans ⟨?_, by simp [atomsOf], by simp [atomsOf]⟩ (-1) (-1) (by decide +kernel)
    (by decide +kernel) (by decide) (by decide)
  rintro f n - (hn | hn | hn)
  · rw [Cell.long.inj (List.mem_singleton.1 hn)]
    decide +kernel
  · simp [atomsOf] at hn
  · simp [atomsOf] at hn

/-- Above `2 ^ 53` two integers are equal to one `double`. -/
theorem compareCells_not_transitive :
    compareCells exactRuntime (.long 9007199254740993)
      (.float (Binary64.ofInt 9007199254740992)) = .value 0 ∧
    compareCells exactRuntime (.float (Binary64.ofInt 9007199254740992))
      (.long 9007199254740992) = .value 0 ∧
    compareCells exactRuntime (.long 9007199254740993) (.long 9007199254740992) =
      .value 1 := by
  decide +kernel

end Preorder

end NewLispNeo
