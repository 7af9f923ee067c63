/-
The Fourier transform of nl-math.c over exact numbers: `fft` with the padding of its list,
and `fastFourierTransform` on the interleaved real and imaginary parts.
-/
import Mathlib.Analysis.SpecialFunctions.Trigonometric.Basic
import Mathlib.Data.Nat.Log
import NewLispNeo.ForLoop
import NewLispNeo.Fourier

namespace NewLispNeo

namespace FourierTransform

/-- A cell of the list.  Of a list in it, the first two cells are read. -/
inductive ListCell where
  | number (x : ℝ)
  | expression (cell next : Option ℝ)
  | other

/-- `ERR_LIST_OR_NUMBER_EXPECTED` -/
inductive FftError where
  | listOrNumberExpected

/-- `unsigned int` -/
def uint (n : Nat) : Nat := n % 2 ^ 32

/-- The doubles of an allocated block. -/
abbrev Data := Nat → ℝ

/-- `getDirectFloat`, which is zero for a cell that is not a number. -/
noncomputable def getDirectFloat (cell : Option ℝ) : ℝ := cell.getD 0

/-- `makeListFromFloats` -/
def makeListFromFloats (num1 num2 : ℝ) : ListCell := .expression (some num1) (some num2)

/-- `while(N < n) N <<= 1` -/
def padding (n : Nat) : Nat → Nat → Outcome FftError Nat
  | 0, _ => .timeout
  | fuel + 1, N => if N < n then padding n fuel (uint (N <<< 1)) else .value N

section Block

/- The number of doubles in the block `data`. -/
variable (size : Nat)

/-- `data[i] = x` -/
def put (data : Data) (i : Nat) (x : ℝ) : Outcome FftError Data :=
  if i < size then .value (Function.update data i x) else .undefined

/-- `SWAP(data[a], data[b])` -/
def swap (data : Data) (a b : Nat) : Outcome FftError Data :=
  if a < size ∧ b < size then
    .value (Function.update (Function.update data a (data b)) b (data a))
  else .undefined

/-- `while(m >= 2 && j > m)` and `j += m` -/
def advance : Nat → Nat → Nat → Outcome FftError Nat
  | 0, _, _ => .timeout
  | fuel + 1, m, j =>
      if 2 ≤ m ∧ m < j then advance fuel (m >>> 1) (j - m) else .value (j + m)

/-- The body of the first loop of `fastFourierTransform`. -/
def reorder (fuel n i : Nat) : Nat × Data → Outcome FftError (Nat × Data)
  | (j, data) =>
      (if i < j then
        swap size data (j - 1) (i - 1) >>= fun data => swap size data j i
      else .value data) >>= fun data =>
        advance fuel (n >>> 1) j >>= fun j => .value (j, data)

/-- The body of the loop over `i`. -/
noncomputable def butterfly (mmax : Nat) (wr wi : ℝ) (i : Nat) (data : Data) :
    Outcome FftError Data :=
  let j := i + mmax
  if j < size then
    let tempr := wr * data (j - 1) - wi * data j
    let tempi := wr * data j + wi * data (j - 1)
    let data := Function.update data (j - 1) (data (i - 1) - tempr)
    let data := Function.update data j (data i - tempi)
    let data := Function.update data (i - 1) (data (i - 1) + tempr)
    .value (Function.update data i (data i + tempi))
  else .undefined

/-- The body of the loop over `m`. -/
noncomputable def twiddle (fuel n mmax : Nat) (wpr wpi : ℝ) (m : Nat) :
    ℝ × ℝ × Data → Outcome FftError (ℝ × ℝ × Data)
  | (wr, wi, data) =>
      Outcome.forLoop (n + 1) (mmax <<< 1) (butterfly size mmax wr wi) fuel m data >>= fun data =>
        let wtemp := wr
        let wr := wtemp * wpr - wi * wpi + wr
        let wi := wi * wpr + wtemp * wpi + wi
        .value (wr, wi, data)

/-- `while(n > mmax)`.  The constant of the source is the double next to `2 * π`. -/
noncomputable def passes (loops n : Nat) (isign : ℝ) : Nat → Nat → Data → Outcome FftError Data
  | 0, _, _ => .timeout
  | fuel + 1, mmax, data =>
      if mmax < n then
        let istep := mmax <<< 1
        let theta := isign * (2 * Real.pi / mmax)
        let wtemp := Real.sin (0.5 * theta)
        let wpr := -2.0 * wtemp * wtemp
        let wpi := Real.sin theta
        Outcome.forLoop mmax 2 (twiddle size loops n mmax wpr wpi) loops 1 (1, 0, data) >>=
          fun r => passes loops n isign fuel istep r.2.2
      else .value data

noncomputable def fastFourierTransform (fuel : Nat) (data : Data) (nn : Nat) (isign : ℝ) :
    Outcome FftError Data :=
  let n := uint (nn <<< 1)
  Outcome.forLoop n 2 (reorder size fuel n) fuel 1 (1, data) >>= fun r =>
    passes size fuel n isign fuel 2 r.2

/-- `for(i = 0; i < n*2; i+=2)` along the list. -/
noncomputable def fill (bound : Nat) : List ListCell → Nat → Data → Outcome FftError Data
  | [], i, data => if i < bound then .error .listOrNumberExpected else .value data
  | list :: rest, i, data =>
      if i < bound then
        match list with
        | .number x =>
            put size data i x >>= fun data =>
              put size data (i + 1) 0 >>= fun data => fill bound rest (i + 2) data
        | .expression cell next =>
            put size data i (getDirectFloat cell) >>= fun data =>
              put size data (i + 1) (getDirectFloat next) >>= fun data =>
                fill bound rest (i + 2) data
        | .other => .error .listOrNumberExpected
      else .value data

/-- `makeListFromFloats(data[i], data[i+1])` at the end of the list. -/
def appendPair (data : Data) (i : Nat) (list : List ListCell) :
    Outcome FftError (List ListCell) :=
  if i + 1 < size then .value (list ++ [makeListFromFloats (data i) (data (i + 1))])
  else .undefined

end Block

noncomputable def fft (fuel : Nat) (listData : List ListCell) (isign : ℝ) :
    Outcome FftError (List ListCell) :=
  let n := uint listData.length
  padding n fuel 1 >>= fun N =>
    let size := uint (N * 2)
    fill size (uint (n * 2)) listData 0 (fun _ => 0) >>= fun data =>
      Outcome.forLoop (uint (N * 2)) 1 (fun i data => put size data i 0) fuel (uint (n * 2))
          data >>= fun data =>
          fastFourierTransform size fuel data N isign >>= fun data =>
            (if isign = -1 then
              Outcome.forLoop (uint (n * 2)) 1 (fun i data => put size data i (data i / N)) fuel 0
                data
            else .value data) >>= fun data =>
              appendPair size data 0 [] >>= fun list =>
                Outcome.forLoop (uint (N * 2)) 2 (appendPair size data) fuel 2 list

noncomputable def p_fft (listData : List ListCell) (fuel : Nat) :
    Outcome FftError (List ListCell) := fft fuel listData 1

noncomputable def p_ifft (listData : List ListCell) (fuel : Nat) :
    Outcome FftError (List ListCell) := fft fuel listData (-1)

/-! ### The discrete Fourier transform -/

/-- A real or complex number of the list. -/
inductive Number where
  | real (x : ℝ)
  | complex (re im : ℝ)

def Number.cell : Number → ListCell
  | .real x => .number x
  | .complex re im => .expression (some re) (some im)

def Number.value : Number → ℂ
  | .real x => ⟨x, 0⟩
  | .complex re im => ⟨re, im⟩

/-- The number at a place of the list with zeros behind. -/
def padded (zs : List Number) (k : Nat) : ℂ := (zs.map Number.value).getD k 0

/-- The least power of two that is not below `n`. -/
def points (n : Nat) : Nat := 2 ^ Nat.clog 2 n

/-- The root of unity of `fft`.  In the manual `(fft '(1 2 3 4))` has `(-2 -2)` at frequency
one, which is the sum with the positive exponent. -/
noncomputable def root (N : Nat) : ℂ := Complex.exp (2 * Real.pi * Complex.I / N)

/-- The factor of the pass that makes rows of `2 ^ s` numbers. -/
noncomputable def turn (isign : ℝ) (s : Nat) : ℂ :=
  Complex.exp ((isign * (2 * Real.pi / 2 ^ s) : ℝ) * Complex.I)

/-- The list of the pairs of real and imaginary part. -/
def pairs (N : Nat) (f : Nat → ℂ) : List ListCell :=
  (List.range N).map fun k => makeListFromFloats (f k).re (f k).im

/-- The run ends with this list, with any fuel from some amount on. -/
def Returns (run : Nat → Outcome FftError (List ListCell)) (list : List ListCell) : Prop :=
  ∃ fuel₀, ∀ fuel, fuel₀ ≤ fuel → run fuel = .value list

/-- `fft` and `ifft` are the transform of a list and its inverse. -/
structure Transforms (zs : List Number) : Prop where
  forward : Returns (p_fft (zs.map Number.cell))
    (pairs (points zs.length)
      (FourierSum.dftSum (root (points zs.length)) (points zs.length) (padded zs)))
  backward : Returns (p_ifft (zs.map Number.cell))
    (pairs (points zs.length) fun k =>
      FourierSum.dftSum (root (points zs.length))⁻¹ (points zs.length) (padded zs) k /
        points zs.length)
  inverse : ∃ list, Returns (p_fft (zs.map Number.cell)) list ∧
    Returns (p_ifft list) (pairs (points zs.length) (padded zs))

/-- The polynomial with the numbers of the list as coefficients is zero at `z`. -/
def Vanishes (zs : List Number) (z : ℂ) : Prop :=
  ∑ j ∈ Finset.range zs.length, padded zs j * z ^ j = 0

end FourierTransform

end NewLispNeo
