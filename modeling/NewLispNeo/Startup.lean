/-
The interpreter after its start: the built-in functions in their symbols, and a
runtime that computes bigints through the integers.
-/
import NewLispNeo.Interpreter

namespace NewLispNeo

/-- The modelled entries of `primitive[]` in primes.h, with their flags. -/
def primitives : List (String × Primitive × Nat) :=
  [("while", .while_, 2), ("dotimes", .dotimes, 2), ("cond", .condition, 1),
    ("begin", .evalBlock, 1), ("and", .and, 0), ("if", .if_, 2),
    ("if-not", .ifNot, 2), ("unless", .unless, 2), ("when", .when, 2),
    ("or", .or, 0), ("set", .set, 0x400), ("setf", .setf, 0x400),
    ("setq", .setf, 0x400), ("let", .let_, 0x402), ("local", .local_, 2),
    ("letn", .letn, 2), ("+", .add, 0), ("-", .subtract, 0),
    ("*", .multiply, 0), ("/", .divide, 0), ("%", .modulo, 0),
    ("<", .less, 0), (">", .greater, 0), ("<=", .lessEqual, 0),
    (">=", .greaterEqual, 0), ("=", .equal, 0), ("!=", .notEqual, 0),
    ("inc", .incrementF, 0x400), ("dec", .decrementF, 0x400),
    ("swap", .other "swap", 0), ("eval-string", .other "eval-string", 0)]

/-- The entry of `primitive[]` for a symbol of `MAIN`. -/
def findPrimitive (s : Symbol) : Option (Primitive × Nat) :=
  if s.context = "MAIN" then primitives.lookup s.name else none

/-- The symbols that are protected beside the built-in functions. -/
def systemSymbols : List Symbol :=
  [nilSymbol, trueSymbol, itSymbol, listIdxSymbol, argsSymbol]

/-- The flags `initialize` gives to the symbols. -/
def startupFlags (s : Symbol) : Nat :=
  match findPrimitive s with
  | some (_, flags) => flags ||| symbolProtected
  | none => if s ∈ systemSymbols then symbolProtected else 0

/-- The symbol table `initialize` makes. -/
def startup : Interp where
  bind s :=
    match findPrimitive s with
    | some (p, _) =>
        ⟨.primitive p, primitives.findIdx (fun e => e.1 = s.name) + 1⟩
    | none => ⟨if s = trueSymbol then .true_ else .nil, 0⟩
  next := primitives.length + 1
  itFreed := false

namespace Bigint

/-- `BIGINT_BASE`. -/
def base : Nat := 1000000000

def magnitude (b : Bigint) : Nat :=
  b.digits.foldl (fun n d => n * base + d) 0

def toInt (b : Bigint) : Int :=
  if b.negative then -(b.magnitude : Int) else b.magnitude

/-- The digits of `n` in front of `acc`, highest first. -/
def digitsOf : Nat → Nat → List Nat → List Nat
  | 0, _, acc => acc
  | fuel + 1, n, acc =>
      if n < base then n :: acc
      else digitsOf fuel (n / base) (n % base :: acc)

def ofInt (n : Int) : Bigint :=
  { negative := n < 0, digits := digitsOf (n.natAbs + 1) n.natAbs [] }

end Bigint

/-- The runtime on exact integers; cells of one type without a better order are
all at one address. -/
def exactRuntime : Runtime where
  addBigint x y := .ofInt (x.toInt + y.toInt)
  subBigint x y := .ofInt (x.toInt - y.toInt)
  mulBigint x y := .ofInt (x.toInt * y.toInt)
  divModBigint x y rmndr :=
    if y.toInt = 0 then none
    else some (.ofInt (if rmndr then x.toInt.tmod y.toInt
      else x.toInt.tdiv y.toInt))
  intToBigint n := .ofInt n.toInt
  floatToBigint x :=
    if x.isNaN || x.isInf then none else some (.ofInt x.trunc)
  bigintToInt64 b :=
    if 2 ^ 63 ≤ b.toInt ∨ b.toInt < -2 ^ 63 then none
    else some (BitVec.ofInt 64 b.toInt)
  bigintCellToFloat b := Binary64.ofInt b.toInt
  symbolAddress _ := 0
  functionAddress _ := 0

/-- The compiler's context after the start. -/
def startupContext : CompileContext where
  runtime := exactRuntime
  flags := startupFlags
  holdsFexpr _ := false
  selfSymbol := none

/-- The machine after the start, under an evaluator of the given depth. -/
def startupMachine (fuel : Nat) : MachineContext where
  compile := startupContext
  ev := evaluateExpression startupContext true fuel
  fuel := fuel
  implicitIndex _ _ _ := .undefined
  primitive _ _ _ := .undefined

/-- A symbol of `MAIN`. -/
def mainSymbol (name : String) : Symbol := ⟨"MAIN", name⟩

end NewLispNeo
