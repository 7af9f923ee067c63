/-
The data model of newlisp.h: symbols, cells and the predicates on cells.  A
list is kept as the Lean list of its cells in `next` order; the shared
`nilCell` that ends every list is the end of that list.
-/
import NewLispNeo.Binary64
import NewLispNeo.Outcome

namespace NewLispNeo

/-- What an `int` and an `INT64` hold of a number. -/
def int32 (n : Int) : Int := n.bmod (2 ^ 32)
def int64 (n : Int) : Int := n.bmod (2 ^ 64)

theorem int32_eq {n : Int} (hlow : -2 ^ 31 ≤ n) (hhigh : n < 2 ^ 31) :
    int32 n = n := by
  exact Int.bmod_eq_of_le (by omega) (by omega)

theorem int64_eq {n : Int} (hlow : -2 ^ 63 ≤ n) (hhigh : n < 2 ^ 63) :
    int64 n = n := by
  exact Int.bmod_eq_of_le (by omega) (by omega)

/-- A 64-bit `INT`. -/
abbrev Word := BitVec 64

/-- A `SYMBOL`, identified by its context and its name. -/
structure Symbol where
  context : String
  name : String
deriving DecidableEq

/-- The built-in functions: those this development gives a meaning to, and the others. -/
inductive Primitive where
  | if_ | ifNot | when | unless | condition | and | or | evalBlock
  | while_ | dotimes
  | let_ | letn | local_ | set | setf
  | add | subtract | multiply | divide | modulo
  | less | greater | lessEqual | greaterEqual | equal | notEqual
  | incrementF | decrementF
  | other (name : String)
deriving DecidableEq

/-- A bigint: its sign and its digits to the base `BIGINT_BASE`, highest first. -/
structure Bigint where
  negative : Bool
  digits : List Nat
deriving DecidableEq

/-- A `CELL` with what hangs off it.  A lambda cell also remembers the symbol
`define` passed to `compileLambda`, since its bytecode depends on it. -/
inductive Cell where
  | nil
  | true_
  | long (contents : Word)
  | bigint (contents : Bigint)
  | float (contents : Binary64)
  | string (contents : List UInt8)
  | symbol (contents : Symbol)
  | context (contents : Symbol)
  | primitive (contents : Primitive)
  | quote (contents : Cell)
  | expression (contents : List Cell)
  | lambda (selfSymbol : Option Symbol) (contents : List Cell)
  | fexpr (contents : List Cell)
  | array (contents : List Cell)
  | dynSymbol (context : Symbol) (name : String)

/-- The error numbers of newlisp.h that the modelled code raises, and the
machine trap of an integer division. -/
inductive Error where
  | listExpected | symbolExpected | numberExpected | invalidFunction
  | invalidLambda | invalidLet | math | symbolProtected | numberOutOfRange
  | missingArgument | isNotReferenced | invalidParameter | cannotConvert
  | trap
deriving DecidableEq

def nilSymbol : Symbol := ⟨"MAIN", "nil"⟩
def trueSymbol : Symbol := ⟨"MAIN", "true"⟩
def itSymbol : Symbol := ⟨"MAIN", "$it"⟩
def listIdxSymbol : Symbol := ⟨"MAIN", "$idx"⟩
def argsSymbol : Symbol := ⟨"MAIN", "$args"⟩

def isNil : Cell → Bool
  | .nil => true
  | .symbol s => s = nilSymbol
  | _ => false

def isTrue : Cell → Bool
  | .true_ => true
  | .symbol s => s = trueSymbol
  | _ => false

def isEmpty : Cell → Bool
  | .expression [] => true
  | _ => false

/-- What a condition counts as false: `isNil(cell) || isEmpty(cell)`. -/
def isFalsy (cell : Cell) : Bool := isNil cell || isEmpty cell

def isNumber : Cell → Bool
  | .long _ | .bigint _ | .float _ => true
  | _ => false

def isList : Cell → Bool
  | .expression _ | .lambda _ _ | .fexpr _ => true
  | _ => false

def isSymbol : Cell → Bool
  | .symbol _ | .dynSymbol _ _ => true
  | _ => false

/-- `isSelfEval(cell->type)`. -/
def isSelfEval : Cell → Bool
  | .symbol _ | .context _ | .quote _ | .expression _ | .dynSymbol _ _ => false
  | _ => true

/-- `cell->type & COMPARE_TYPE_MASK`. -/
def compareType : Cell → Int
  | .nil => 0
  | .true_ => 1
  | .long _ => 2
  | .bigint _ => 2
  | .float _ => 3
  | .string _ => 4
  | .symbol _ => 5
  | .context _ => 6
  | .primitive _ => 7
  | .quote _ => 10
  | .expression _ => 11
  | .lambda _ _ => 12
  | .fexpr _ => 13
  | .array _ => 14
  | .dynSymbol _ _ => 15

def ofBool (b : Bool) : Cell := if b then .true_ else .nil

mutual

/-- The symbols a cell refers to. -/
def Cell.symbols : Cell → List Symbol
  | .symbol s => [s]
  | .context s => [s]
  | .dynSymbol s _ => [s]
  | .quote c => c.symbols
  | .expression cs => Cell.symbolsList cs
  | .lambda _ cs => Cell.symbolsList cs
  | .fexpr cs => Cell.symbolsList cs
  | .array cs => Cell.symbolsList cs
  | _ => []

def Cell.symbolsList : List Cell → List Symbol
  | [] => []
  | c :: cs => c.symbols ++ Cell.symbolsList cs

end

theorem Cell.mem_symbolsList {s : Symbol} {cs : List Cell} :
    s ∈ Cell.symbolsList cs ↔ ∃ c ∈ cs, s ∈ c.symbols := by
  induction cs with
  | nil => simp [Cell.symbolsList]
  | cons c cs ih => simp [Cell.symbolsList, ih]

@[simp] theorem Cell.symbols_expression (cs : List Cell) :
    (Cell.expression cs).symbols = Cell.symbolsList cs := by
  rw [Cell.symbols]

end NewLispNeo
