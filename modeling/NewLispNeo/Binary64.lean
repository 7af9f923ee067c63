/-
IEEE 754 binary64 numbers as bit patterns, with the few operations a C program
performs on a `double`: classification, ordering, truncation to an integer,
conversion from an integer, negation and addition, the last two rounding to
nearest with ties to even.
-/
import Mathlib.Algebra.Ring.Int.Defs
import Mathlib.Algebra.Ring.Nat
import Mathlib.Data.Nat.Log

/-- A C `double`, identified with its 64-bit pattern. -/
structure Binary64 where
  bits : BitVec 64
deriving DecidableEq

namespace Binary64

def negative (x : Binary64) : Bool := 2 ^ 63 ≤ x.bits.toNat

def biasedExponent (x : Binary64) : Nat := x.bits.toNat / 2 ^ 52 % 2 ^ 11

def fraction (x : Binary64) : Nat := x.bits.toNat % 2 ^ 52

def isNaN (x : Binary64) : Bool :=
  x.biasedExponent = 2047 && x.fraction ≠ 0

def isInf (x : Binary64) : Bool :=
  x.biasedExponent = 2047 && x.fraction = 0

/-- The magnitude in units of `2 ^ (-1074)`, the smallest subnormal.  An
infinity gets a magnitude above that of every finite number. -/
def magnitude (x : Binary64) : Nat :=
  if x.biasedExponent = 0 then x.fraction
  else (2 ^ 52 + x.fraction) * 2 ^ (x.biasedExponent - 1)

/-- The signed value in units of `2 ^ (-1074)`. -/
def scaled (x : Binary64) : Int :=
  if x.negative then -(x.magnitude : Int) else x.magnitude

def lt (x y : Binary64) : Bool :=
  !x.isNaN && !y.isNaN && x.scaled < y.scaled

/-- Truncation toward zero, the C conversion to an integer type. -/
def trunc (x : Binary64) : Int := x.scaled.tdiv (2 ^ 1074)

def encode (negative : Bool) (exponent fraction : Nat) : Binary64 :=
  ⟨BitVec.ofNat 64
    ((if negative then 2 ^ 63 else 0) + exponent * 2 ^ 52 + fraction)⟩

def infinity (negative : Bool) : Binary64 := encode negative 2047 0

def nan : Binary64 := encode false 2047 (2 ^ 51)

def zero : Binary64 := encode false 0 0

/-- Round a magnitude given in units of `2 ^ (-1074)` to nearest even. -/
def roundMagnitude (negative : Bool) (n : Nat) : Binary64 :=
  if n < 2 ^ 53 then
    if n < 2 ^ 52 then encode negative 0 n
    else encode negative 1 (n - 2 ^ 52)
  else
    let shift := Nat.log2 n - 52
    let kept := n / 2 ^ shift
    let lost := n % 2 ^ shift
    let half := 2 ^ (shift - 1)
    let rounded :=
      if half < lost || (lost = half && kept % 2 = 1) then kept + 1 else kept
    let exponent := if rounded = 2 ^ 53 then shift + 2 else shift + 1
    let fraction := if rounded = 2 ^ 53 then 0 else rounded - 2 ^ 52
    if 2047 ≤ exponent then infinity negative
    else encode negative exponent fraction

def roundScaled (n : Int) : Binary64 := roundMagnitude (n < 0) n.natAbs

/-- The C conversion of an integer to `double`. -/
def ofInt (n : Int) : Binary64 := roundScaled (n * 2 ^ 1074)

def neg (x : Binary64) : Binary64 := ⟨x.bits ^^^ BitVec.ofNat 64 (2 ^ 63)⟩

def add (x y : Binary64) : Binary64 :=
  if x.isNaN || y.isNaN then nan
  else if x.isInf then
    if y.isInf && x.negative != y.negative then nan else x
  else if y.isInf then y
  else if x.scaled + y.scaled = 0 then
    encode (x.negative && y.negative) 0 0
  else roundScaled (x.scaled + y.scaled)

end Binary64
