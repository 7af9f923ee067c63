/-
Number access and cell comparison of nl-math.c: `getInteger64Ext`,
`compareFloats`, `compareInts`, `compareSymbols`, `compareCells` and
`compareLists`.
-/
import NewLispNeo.Cell

namespace NewLispNeo

/-- What the modelled functions take from their surroundings: the digit-array
routines for bigints, `none` where one raises its error, and the addresses by
which cells of one type without a better order are compared. -/
structure Runtime where
  addBigint : Bigint → Bigint → Bigint
  subBigint : Bigint → Bigint → Bigint
  mulBigint : Bigint → Bigint → Bigint
  divModBigint : Bigint → Bigint → Bool → Option Bigint
  intToBigint : Word → Bigint
  floatToBigint : Binary64 → Option Bigint
  bigintToInt64 : Bigint → Option Word
  bigintCellToFloat : Bigint → Binary64
  symbolAddress : Symbol → Word
  functionAddress : Primitive → Word

/-- The loop of `cmpAbsBigint` over digit arrays of one length. -/
def cmpDigits : List Nat → List Nat → Int
  | x :: xs, y :: ys => if y < x then 1 else if x < y then -1 else cmpDigits xs ys
  | _, _ => 0

/-- `cmpAbsBigint`. -/
def cmpAbsBigint (x y : Bigint) : Int :=
  if x.digits.length = y.digits.length then cmpDigits x.digits y.digits
  else if y.digits.length < x.digits.length then 1 else -1

/-- `cmpBigint`. -/
def cmpBigint (x y : Bigint) : Int :=
  -- make sure 0 == -0
  if x.digits = [0] ∧ y.digits = [0] then 0
  else if x.negative = false ∧ y.negative = true then 1
  else if x.negative = true ∧ y.negative = false then -1
  else if x.negative then -cmpAbsBigint x y
  else cmpAbsBigint x y

variable (rt : Runtime)

/-- The clamped conversion of a `double` in `getInteger64Ext`.  The literal
`9223372036854775807.0` is the double `2 ^ 63`, which passes the test and wraps
in the conversion. -/
def floatToInt64 (x : Binary64) : Word :=
  if x.isNaN then 0
  else if 2 ^ 63 < x.trunc then BitVec.ofInt 64 (2 ^ 63 - 1)
  else if x.trunc < -2 ^ 63 then BitVec.ofInt 64 (-2 ^ 63)
  else BitVec.ofInt 64 x.trunc

/-- `getInteger64Ext` on an evaluated cell. -/
def getInteger64 : Cell → Outcome Error Word
  | .long n => .value n
  | .float x => .value (floatToInt64 x)
  | .bigint b => (rt.bigintToInt64 b).elim (.error .numberOutOfRange) .value
  | _ => .error .numberExpected

/-- `getBigintSizeDirect`. -/
def getBigintSizeDirect : Cell → Outcome Error Bigint
  | .long n => .value (rt.intToBigint n)
  | .float x => (rt.floatToBigint x).elim (.error .cannotConvert) .value
  | .bigint b => .value b
  | _ => .error .numberExpected

/-- `getDirectFloat`: cells that are not numbers count as `0.0`. -/
def getDirectFloat : Cell → Binary64
  | .float x => x
  | .long n => Binary64.ofInt n.toInt
  | .bigint b => rt.bigintCellToFloat b
  | _ => Binary64.zero

/-- `getFloat` on an evaluated cell. -/
def getFloat : Cell → Outcome Error Binary64
  | .float x => .value x
  | .long n => .value (Binary64.ofInt n.toInt)
  | .bigint b => .value (rt.bigintCellToFloat b)
  | _ => .error .numberExpected

/-- `compareFloats`: `9` stands for a comparison that involves a NaN. -/
def compareFloats (left right : Cell) : Int :=
  let leftFloat := getDirectFloat rt left
  let rightFloat := getDirectFloat rt right
  if leftFloat.isNaN || rightFloat.isNaN then 9
  else if leftFloat.lt rightFloat then -1
  else if rightFloat.lt leftFloat then 1
  else 0

def compareWords (left right : Word) : Int :=
  if left.toInt < right.toInt then -1
  else if right.toInt < left.toInt then 1
  else 0

/-- `compareInts`, for a `CELL_LONG` and a `CELL_BIGINT`. -/
def compareInts (left right : Cell) : Outcome Error Int :=
  match left with
  | .bigint b => do
      let rightnum ← getBigintSizeDirect rt right
      return cmpBigint b rightnum
  | _ => do
      let leftnum ← getInteger64 rt left
      let rightnum ← getInteger64 rt right
      return compareWords leftnum rightnum

/-- The sign of `strcmp`. -/
def strcmp (left right : String) : Int :=
  if left = right then 0 else if left < right then -1 else 1

/-- The sign of the first difference. -/
def firstDifference : List UInt8 → List UInt8 → Int
  | a :: as, b :: bs => if a < b then -1 else if b < a then 1 else firstDifference as bs
  | _, _ => 0

/-- The sign of `memcmp(left, right, n)`, which may read `n` bytes of both. -/
def memcmp (left right : List UInt8) (n : Nat) : Outcome Error Int :=
  if n ≤ left.length ∧ n ≤ right.length then
    .value (firstDifference (left.take n) (right.take n))
  else .undefined

/-- The `CELL_STRING` case of `compareCells`.  The lengths are subtracted in an `int`, and a
terminating zero stands behind each string. -/
def compareStrings (left right : List UInt8) : Outcome Error Int :=
  let comp := int32 (left.length - right.length)
  if comp = 0 then memcmp (left ++ [0]) (right ++ [0]) (left.length + 1)
  else if 0 < comp then do
    let comp ← memcmp (left ++ [0]) (right ++ [0]) right.length
    return if comp = 0 then 1 else comp
  else do
    let comp ← memcmp (left ++ [0]) (right ++ [0]) left.length
    return if comp = 0 then -1 else comp

/-- Context and symbol name as `compareSymbols` reads them. -/
def symbolNames : Cell → String × String
  | .symbol s => (s.context, s.name)
  | .dynSymbol context name => (context.name, name)
  | _ => ("", "")

def compareSymbols (left right : Cell) : Int :=
  if isNil left then (if isNil right then 0 else -1)
  else if isTrue left then
    if isTrue right then 0 else if isNil right then 1 else -1
  else if isNil right || isTrue right then 1
  else
    let comp := strcmp (symbolNames left).1 (symbolNames right).1
    if comp ≠ 0 then comp
    else strcmp (symbolNames left).2 (symbolNames right).2

def isInt : Cell → Bool
  | .long _ | .bigint _ => true
  | _ => false

def isFloat : Cell → Bool
  | .float _ => true
  | _ => false

/-- `compareCells` on cells of different types. -/
def compareTypes (left right : Cell) : Outcome Error Int :=
  if isFloat left && isInt right || isInt left && isFloat right then
    .value (compareFloats rt left right)
  else if isInt left && isInt right then compareInts rt left right
  else if isNil left then .value (if isNil right then 0 else -1)
  else if isTrue left then
    .value (if isTrue right then 0 else if isNil right then 1 else -1)
  else if isNil right || isTrue right then .value 1
  else if isSymbol left && isSymbol right then
    .value (compareSymbols left right)
  else
    match left, right with
    | .symbol s, .context t | .context s, .symbol t =>
        .value (strcmp s.name t.name)
    | _, _ =>
        .value (if compareType left < compareType right then -1
          else if compareType right < compareType left then 1 else 0)

mutual

/-- `compareCells`: negative, `0` or positive, or `9` when a NaN decides. -/
def compareCells : Cell → Cell → Outcome Error Int
  | .string l, .string r => compareStrings l r
  | .symbol l, .symbol r => .value (compareSymbols (.symbol l) (.symbol r))
  | .dynSymbol c l, .dynSymbol d r =>
      .value (compareSymbols (.dynSymbol c l) (.dynSymbol d r))
  | .quote l, .quote r => compareCells l r
  | .expression l, .expression r => compareLists l r
  | .lambda _ l, .lambda _ r => compareLists l r
  | .fexpr l, .fexpr r => compareLists l r
  | .array l, .array r =>
      if l.length < r.length then .value (-1)
      else if r.length < l.length then .value 1
      else compareLists l r
  | .float x, .float y => .value (compareFloats rt (.float x) (.float y))
  | .bigint l, .bigint r => .value (cmpBigint l r)
  | .long l, .long r => .value (compareWords l r)
  | .context l, .context r =>
      .value (compareWords (rt.symbolAddress l) (rt.symbolAddress r))
  | .primitive l, .primitive r =>
      .value (compareWords (rt.functionAddress l) (rt.functionAddress r))
  | .nil, .nil => .value 0
  | .true_, .true_ => .value 0
  | left, right => compareTypes rt left right

def compareLists : List Cell → List Cell → Outcome Error Int
  | l :: ls, r :: rs => do
      let result ← compareCells l r
      if result ≠ 0 then return result else compareLists ls rs
  | [], [] => .value 0
  | [], _ :: _ => .value (-1)
  | _ :: _, [] => .value 1

end

theorem compareCells_long (l r : Word) :
    compareCells rt (.long l) (.long r) = .value (compareWords l r) := rfl

theorem compareWords_lt_zero_iff (l r : Word) :
    compareWords l r < 0 ↔ l.toInt < r.toInt := by
  unfold compareWords
  split
  · simpa
  · split <;> simp_all

theorem compareWords_eq_zero_iff (l r : Word) :
    compareWords l r = 0 ↔ l = r := by
  unfold compareWords
  rw [← BitVec.toInt_inj]
  split
  · constructor <;> intro h <;> omega
  · split
    · constructor <;> intro h <;> omega
    · constructor <;> intro h <;> omega

end NewLispNeo
