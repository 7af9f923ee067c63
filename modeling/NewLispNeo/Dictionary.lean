/-
A context used as a dictionary: `evaluateNamespaceHash` of newlisp.c over the symbol
table of the context.
-/
import NewLispNeo.SymbolDeletion
import NewLispNeo.BigintInt64
import NewLispNeo.Digits
import Mathlib.Data.List.TakeWhile

namespace NewLispNeo

/-- The string in a buffer, which ends at the first zero byte. -/
def CString.ofBuffer (buffer : List UInt8) : CString where
  bytes := buffer.takeWhile (· ≠ 0)
  behind := 0
  noZero := by
    intro hmem
    have hne := List.mem_takeWhile_imp hmem
    simp at hne

/-- `getIntegerExt` on an evaluated cell. -/
def getIntegerExt : Cell → Outcome Error Word
  | .long n => .value n
  | .float x => .value (floatToInt64 x)
  | .bigint b => Bigint.bigintToInt64 b
  | _ => .error .numberExpected

/-- A context: its symbol and that symbol's name, its own symbols, and the contents of
each, which is a null pointer in a new symbol. -/
structure Dictionary where
  symbol : Symbol
  name : CString
  table : SymbolTree
  contents : Nat → Option Cell

/-- `cell->type == CELL_STRING || isNumber(cell->type)`. -/
def isKey : Cell → Bool
  | .string _ => true
  | cell => isNumber cell

abbrev HashKey := {cell : Cell // isKey cell = true}

/-- The arguments of a call on the context.  The new value may depend on the old one,
which is `$it`. -/
inductive HashArgs where
  | store (key : HashKey) (value : Cell → Outcome Error Cell)
  | get (key : HashKey)
  | load (assocs : List Cell)

/-- A call on the context, or the assignment of a symbol in it. -/
inductive ContextCall where
  | hash (args : HashArgs)
  | assign (symbol : CString) (value : Cell)

namespace Dictionary

def underscore : UInt8 := '_'.toUInt8

def setContents (D : Dictionary) (x : Nat) (value : Option Cell) : Dictionary :=
  { D with contents := Function.update D.contents x value }

/-- `translateCreateSymbol(token, CELL_NIL, context, TRUE)`. -/
def translateCreateSymbol (D : Dictionary) (token : CString) : Option (Nat × Dictionary) := do
  let (sPtr, table) ← findInsertSymbol D.table token true token
  let x ← sPtr
  let D := { D with table := table }
  if (D.contents x).isSome then pure (x, D)
  else pure (x, D.setContents x (some .nil))

/-- The token of `makeSafeSymbol`. -/
def safeToken : Cell → Outcome Error CString
  | .string contents => .value (.ofBuffer (underscore :: contents))
  | cell => do
      let number ← getIntegerExt cell
      pure (.ofBuffer (underscore :: decimalInt number.toInt))

/-- An error leaves the context as it is. -/
def withValue {α β : Type} (D : Dictionary) (x : Outcome Error α)
    (f : α → Option (Outcome Error β × Dictionary)) : Option (Outcome Error β × Dictionary) :=
  match x with
  | .value a => f a
  | .error e => some (.error e, D)
  | .undefined => some (.undefined, D)
  | .timeout => some (.timeout, D)

/-- `deleteAndFreeSymbol(sPtr, FALSE)`. -/
def deleteAndFreeSymbol (D : Dictionary) (x : Nat) : Option Dictionary := do
  let (found, table) ← deleteSymbol D.table (D.table.name x)
  if found then pure ({ D with table := table }.setContents x none) else pure D

/-- The loop over an association list in `evaluateNamespaceHash`. -/
def loadAssocs (D : Dictionary) : List Cell → Option (Outcome Error Unit × Dictionary)
  | .expression (key :: rest) :: assocs =>
      if isKey key then
        D.withValue (safeToken key) fun token => do
          let (x, D) ← D.translateCreateSymbol token
          loadAssocs (D.setContents x (some (rest.headD .nil))) assocs
      else loadAssocs D assocs
  | .expression [] :: assocs => loadAssocs D assocs
  | _ => some (.value (), D)

/-- `evaluateNamespaceHash`. -/
def evaluateNamespaceHash (D : Dictionary) : HashArgs → Option (Outcome Error Cell × Dictionary)
  | .store key value =>
      D.withValue (safeToken key.val) fun token => do
        let (x, D) ← D.translateCreateSymbol token
        let it ← D.contents x
        D.withValue (value it) fun cell =>
          let D := D.setContents x (some cell)
          if isNil cell then do
            let D ← D.deleteAndFreeSymbol x
            pure (.value .nil, D)
          else pure (.value cell, D)
  | .get key =>
      D.withValue (safeToken key.val) fun token => do
        let (sPtr, _) ← findInsertSymbol D.table token false token
        match sPtr with
        | none => pure (.value .nil, D)
        | some x => do
            let cell ← D.contents x
            pure (.value cell, D)
  | .load assocs => do
      let (result, D) ← D.loadAssocs assocs
      D.withValue result fun _ => pure (.value (.symbol D.symbol), D)

/-- A call on a context is a call of its default functor, which is a dictionary if that is
`nil`. -/
def evaluateCall (D : Dictionary) : ContextCall → Option (Outcome Error Cell × Dictionary)
  | .hash args => do
      let (x, D) ← D.translateCreateSymbol D.name
      let functor ← D.contents x
      if isNil functor then D.evaluateNamespaceHash args else none
  | .assign symbol value => do
      let (x, D) ← D.translateCreateSymbol symbol
      pure (.value value, D.setContents x (some value))

def evaluateCalls (D : Dictionary) : List ContextCall → Option Dictionary
  | [] => some D
  | call :: calls => do
      let (_, D) ← D.evaluateCall call
      evaluateCalls D calls

end Dictionary

end NewLispNeo
