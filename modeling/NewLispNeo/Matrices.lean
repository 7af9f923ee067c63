/-
The matrix functions of nl-matrix.c over exact numbers.  The numbers of a matrix are in blocks
whose indices count from one on.
-/
import Mathlib.Algebra.Order.Field.Basic
import NewLispNeo.Outcome

namespace NewLispNeo

namespace Matrices

/-- What the functions read of a cell.  A list is kept as the Lean list of its cells; the
`nilCell` behind its last cell is followed by itself and no number. -/
inductive MatrixCell (K : Type) where
  | number (x : K)
  | expression (contents : List (MatrixCell K))
  | array (contents : List (MatrixCell K))
  | other

/-- `CELL_EXPRESSION` and `CELL_ARRAY` -/
inductive DataType where
  | expression | array
deriving DecidableEq

inductive MatrixError where
  | notMatrix | wrongDimensions
deriving DecidableEq

/-- The block of a matrix: the first row and the first column are one. -/
abbrev Block (K : Type) := Nat → Nat → K

section Loops

variable {σ : Type}

/-- `for(i = first; i <= last; i++)` -/
def forUp (first last : Nat) (body : Nat → σ → σ) (s : σ) : σ :=
  (List.range' first (last + 1 - first)).foldl (fun s i => body i s) s

/-- `for(i = n; i >= 1; i--)` -/
def forDown (body : Nat → σ → σ) : Nat → σ → σ
  | 0, s => s
  | n + 1, s => forDown body n (body (n + 1) s)

end Loops

section Data

variable {K : Type} [Zero K]

/-- `getDirectFloat`, which is zero for a cell that is not a number. -/
def getDirectFloat : MatrixCell K → K
  | .number x => x
  | _ => 0

/-- `getDimensions` -/
def getDimensions : MatrixCell K → Outcome MatrixError (Nat × Nat)
  | .array [] => .undefined
  | .array (cell :: rows) =>
      match cell with
      | .array row => .value (rows.length + 1, row.length)
      | _ => .error .wrongDimensions
  | .expression (row :: rows) =>
      match row with
      | .expression [] => .error .wrongDimensions
      | .expression cells => .value (rows.length + 1, cells.length)
      | _ => .error .notMatrix
  | _ => .error .notMatrix

/-- The number `data2matrix` takes from a row: zero where the row is too short or not of the
type of the matrix. -/
def rowNumber (type : DataType) (row : MatrixCell K) (j : Nat) : K :=
  match type, row with
  | .expression, .expression cells => getDirectFloat (cells.getD (j - 1) .other)
  | .array, .array cells => getDirectFloat (cells.getD (j - 1) .other)
  | _, _ => 0

/-- `data2matrix` -/
def data2matrix (type : DataType) (rows : List (MatrixCell K)) : Block K :=
  fun i j => rowNumber type (rows.getD (i - 1) .other) j

/-- `getMatrix`: the type, the dimensions and the numbers. -/
def getMatrix (data : MatrixCell K) :
    Outcome MatrixError (DataType × Nat × Nat × Block K) := do
  let (n, m) ← getDimensions data
  match data with
  | .expression rows => .value (.expression, n, m, data2matrix .expression rows)
  | .array rows => .value (.array, n, m, data2matrix .array rows)
  | _ => .error .notMatrix

omit [Zero K] in
/-- A list or an array of the cells. -/
def DataType.cell (type : DataType) (contents : List (MatrixCell K)) : MatrixCell K :=
  match type with
  | .expression => .expression contents
  | .array => .array contents

/-- `matrix2data` -/
def matrix2data (matrix : Block K) (type : DataType) (n m : Nat) : MatrixCell K :=
  type.cell ((List.range' 1 n).map fun i =>
    type.cell ((List.range' 1 m).map fun j => .number (matrix i j)))

end Data

/-- `matrix[i][j] = x` -/
def put {K : Type} (matrix : Block K) (i j : Nat) (x : K) : Block K :=
  Function.update matrix i (Function.update (matrix i) j x)

/-- `multiply`, once the dimensions fit. -/
def multiply {K : Type} [Semiring K] (A B : Block K) (n m l : Nat) : Block K :=
  forUp 1 n (fun i C => forUp 1 l (fun j C =>
    put C i j (forUp 1 m (fun s sum => sum + A i s * B s j) 0)) C) fun _ _ => 0

/-- `p_matMultiply` on evaluated arguments. -/
def p_matMultiply {K : Type} [Semiring K] (x y : MatrixCell K) :
    Outcome MatrixError (MatrixCell K) := do
  let (typeX, n, m, X) ← getMatrix x
  let (typeY, k, l, Y) ← getMatrix y
  let typeM := if typeX = .array ∨ typeY = .array then DataType.array else .expression
  if m ≠ k then .error .wrongDimensions
  else .value (matrix2data (multiply X Y n m l) typeM n l)

section Decomposition

variable {K : Type} [Field K] [LinearOrder K]

/-- The absolute biggest number of a row. -/
def rowBig (a : Block K) (n i : Nat) : K :=
  forUp 1 n (fun j big => if big < |a i j| then |a i j| else big) 0

/-- `1/big` for each row; a row of zeros stops the decomposition. -/
def rowScales (a : Block K) (n : Nat) : Option (Nat → K) :=
  (List.range' 1 n).foldlM (fun vv i =>
    let big := rowBig a n i
    if big = 0 then none else some (Function.update vv i (1 / big))) fun _ => 0

/-- The variables of `ludcmp` that live from one column to the next. -/
structure Elimination (K : Type) where
  a : Block K
  vv : Nat → K
  indx : Nat → Nat
  d : K
  imax : Nat

/-- `sum` after the loop over `k`. -/
def reduced (a : Block K) (i j bound : Nat) : K :=
  forUp 1 (bound - 1) (fun k sum => sum - a i k * a k j) (a i j)

/-- The rows above the diagonal. -/
def reduceAbove (a : Block K) (j : Nat) : Block K :=
  forUp 1 (j - 1) (fun i a => put a i j (reduced a i j i)) a

/-- The diagonal and the rows below it, with the search for the pivot. -/
def reduceBelow (vv : Nat → K) (n j : Nat) (a : Block K) (imax : Nat) : Block K × K × Nat :=
  forUp j n (fun i s =>
    let sum := reduced s.1 i j j
    let a := put s.1 i j sum
    let dum := vv i * |sum|
    if s.2.1 ≤ dum then (a, dum, i) else (a, s.2.1, s.2.2)) (a, 0, imax)

/-- Exchange two rows. -/
def exchangeRows (a : Block K) (n j imax : Nat) : Block K :=
  forUp 1 n (fun k a => put (put a imax k (a j k)) j k (a imax k)) a

/-- Divide the numbers below the pivot by it. -/
def divideBelow (a : Block K) (n j : Nat) : Block K :=
  let dum := 1 / a j j
  forUp (j + 1) n (fun i a => put a i j (a i j * dum)) a

/-- One column of `ludcmp`.  A `tiny` that is `FP_NAN`, which is the number zero, is none. -/
def column (n : Nat) (tiny : K) (s : Elimination K) (j : Nat) : Option (Elimination K) :=
  let (a, _, imax) := reduceBelow s.vv n j (reduceAbove s.a j) s.imax
  let (a, d, vv) :=
    if j ≠ imax then (exchangeRows a n j imax, -s.d, Function.update s.vv imax (s.vv j))
    else (a, s.d, s.vv)
  let indx := Function.update s.indx j imax
  if a j j = 0 ∧ tiny = 0 then none
  else
    let a := if a j j = 0 then put a j j tiny else a
    some ⟨if j ≠ n then divideBelow a n j else a, vv, indx, d, imax⟩

/-- `ludcmp`: the decomposition, the exchanges and their sign, or `FALSE`. -/
def ludcmp (a : Block K) (n : Nat) (tiny : K) : Option (Elimination K) := do
  let vv ← rowScales a n
  (List.range' 1 n).foldlM (column n tiny) ⟨a, vv, fun _ => 0, 1, 0⟩

/-- The body of the first loop of `lubksb`; `ii` is the first row that is not zero. -/
def forwardStep (a : Block K) (indx : Nat → Nat) (i : Nat) (s : (Nat → K) × Nat) :
    (Nat → K) × Nat :=
  let (b, ii) := s
  let ip := indx i
  let sum := b ip
  let b := Function.update b ip (b i)
  if ii ≠ 0 then
    (Function.update b i (forUp ii (i - 1) (fun j sum => sum - a i j * b j) sum), ii)
  else (Function.update b i sum, if sum ≠ 0 then i else ii)

/-- The body of the second one. -/
def backwardStep (a : Block K) (n i : Nat) (b : Nat → K) : Nat → K :=
  Function.update b i (forUp (i + 1) n (fun j sum => sum - a i j * b j) (b i) / a i i)

/-- `lubksb` -/
def lubksb (a : Block K) (n : Nat) (indx : Nat → Nat) (b : Nat → K) : Nat → K :=
  forDown (backwardStep a n) n (forUp 1 n (forwardStep a indx) (b, 0)).1

/-- A column of the identity in `col`, and the solution of the system for it. -/
def invertColumn (a : Block K) (n : Nat) (indx : Nat → Nat) (j : Nat) (col : Nat → K) : Nat → K :=
  lubksb a n indx (Function.update (forUp 1 n (fun i col => Function.update col i 0) col) j 1)

/-- `invert` -/
def invert (A : Block K) (n : Nat) (tiny : K) : Option (Block K) := do
  let s ← ludcmp A n tiny
  some (forUp 1 n (fun j (r : (Nat → K) × Block K) =>
    let col := invertColumn s.a n s.indx j r.1
    (col, forUp 1 n (fun i Y => put Y i j (col i)) r.2)) (fun _ => 0, fun _ _ => 0)).2

/-- `p_matInvert` on evaluated arguments; `none` is `nil`. -/
def p_matInvert (data : MatrixCell K) (tiny : K) : Outcome MatrixError (Option (MatrixCell K)) := do
  let (typeA, n, m, A) ← getMatrix data
  if n ≠ m then .error .wrongDimensions
  else .value ((invert A n tiny).map fun Y => matrix2data Y typeA n n)

/-- `p_determinant` on evaluated arguments; `none` is `nil`. -/
def p_determinant (data : MatrixCell K) (tiny : K) : Outcome MatrixError (Option K) := do
  let (_, n, m, M) ← getMatrix data
  if n ≠ m then .error .wrongDimensions
  else .value ((ludcmp M n tiny).map fun s => forUp 1 n (fun i d => d * s.a i i) s.d)

end Decomposition

end Matrices

end NewLispNeo
