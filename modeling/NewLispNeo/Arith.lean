/-
The integer arithmetic, comparison and increment primitives of nl-math.c.
Every function takes the evaluator that `evaluateExpression` is at its call.
-/
import NewLispNeo.Interp

namespace NewLispNeo

/-- The operators of `arithmetikOp` that the bytecode compiler inlines or has
an opcode for. -/
inductive ArithOp where
  | add | subtract | multiply | divide | modulo
deriving DecidableEq

/-- The operators of `compareOp`. -/
inductive CompareOp where
  | less | greater | lessEqual | greaterEqual | equal | notEqual
deriving DecidableEq

/-- One step `result op= number` of the integer loop.  A quotient of the least
integer by `-1` traps on the machine. -/
def intStep (op : ArithOp) (result number : Word) : Outcome Error Word :=
  match op with
  | .add => .value (result + number)
  | .subtract => .value (result - number)
  | .multiply => .value (result * number)
  | .divide =>
      if number = 0 then .error .math
      else if result = BitVec.intMin 64 ∧ number = -1 then .error .trap
      else .value (result.sdiv number)
  | .modulo =>
      if number = 0 then .error .math
      else if result = BitVec.intMin 64 ∧ number = -1 then .error .trap
      else .value (result.srem number)

variable (rt : Runtime)

/-- One step of the bigint loop. -/
def bigStep (op : ArithOp) (x y : Bigint) : Outcome Error Bigint :=
  match op with
  | .add => .value (rt.addBigint x y)
  | .subtract => .value (rt.subBigint x y)
  | .multiply => .value (rt.mulBigint x y)
  | .divide => (rt.divModBigint x y false).elim (.error .math) .value
  | .modulo => (rt.divModBigint x y true).elim (.error .math) .value

/-- `*(int *)cell->contents *= -1`. -/
def negateBigint (x : Bigint) : Bigint := { x with negative := !x.negative }

/-- The loop from `NEXT_FIRST_BIGINT`.  `cell` is held by address while the
next operand is evaluated, so it is read again after that. -/
def bigintLoop (ev : Evaluator) (op : ArithOp) :
    Interp → Val → List Cell → Outcome Error (Cell × Interp)
  | σ, cell, [] => .value (cell.cell, σ)
  | σ, cell, param :: params => do
      let (next, σ₁) ← ev σ param
      let held ← cell.deref σ₁
      match cell.cell, held with
      | .bigint x, .bigint x' =>
          -- the digit array is freed when the cell is assigned
          if x = x' then do
            let y ← errorProcArgs next (getBigintSizeDirect rt next.cell)
            let z ← bigStep rt op x y
            bigintLoop ev op σ₁ (Val.temp (.bigint z)) params
          else .undefined
      | _, _ => .undefined

/-- The `while(params != nilCell)` loop on 64-bit integers. -/
def integerLoop (ev : Evaluator) (op : ArithOp) :
    Interp → Word → List Cell → Outcome Error (Cell × Interp)
  | σ, result, [] => .value (.long result, σ)
  | σ, result, param :: params => do
      let (v, σ₁) ← ev σ param
      let number ← getInteger64 rt v.cell
      let result' ← intStep op result number
      integerLoop ev op σ₁ result' params

/-- `arithmetikOp`. -/
def arithmetikOp (ev : Evaluator) (op : ArithOp) (σ : Interp)
    (params : List Cell) : Outcome Error (Cell × Interp) :=
  match params with
  | [] =>
      match op with
      | .add => .value (.long 0, σ)
      | .multiply => .value (.long 1, σ)
      -- the missing operand evaluates to `nilCell`
      | _ => .error .missingArgument
  | param :: params => do
      let (v, σ₁) ← ev σ param
      match v.cell, params with
      | .bigint x, [] =>
          .value (.bigint (if op = .subtract then negateBigint x else x), σ₁)
      | .bigint _, _ => bigintLoop rt ev op σ₁ v params
      | cell, [] => do
          let result ← errorProcArgs v (getInteger64 rt cell)
          .value (.long (if op = .subtract then -result else result), σ₁)
      | cell, _ => do
          let result ← errorProcArgs v (getInteger64 rt cell)
          integerLoop rt ev op σ₁ result params

/-- The verdict of one comparison: `none` goes on, `some c` returns `c`. -/
def compareStop (op : CompareOp) (comp : Int) : Option Cell :=
  if comp = 9 then some (ofBool (op = .notEqual))
  else
    match op with
    | .less => if comp ≥ 0 then some .nil else none
    | .greater => if comp ≤ 0 then some .nil else none
    | .lessEqual => if comp > 0 then some .nil else none
    | .greaterEqual => if comp < 0 then some .nil else none
    | .equal => if comp ≠ 0 then some .nil else none
    | .notEqual => if comp = 0 then some .nil else none

/-- What a single operand is compared with. -/
def compareDefault : Cell → Option Cell
  | .long _ | .bigint _ | .float _ => some (.long 0)
  | .string _ => some (.string [])
  | .expression _ | .lambda _ _ | .fexpr _ => some (.expression [])
  | _ => none

/-- The loop of `compareOp`.  `left` is a pointer, read when compared. -/
def compareLoop (ev : Evaluator) (op : CompareOp) :
    Interp → Val → List Cell → Outcome Error (Cell × Interp)
  | σ, _, [] => .value (.true_, σ)
  | σ, left, param :: params => do
      let (right, σ₁) ← ev σ param
      let leftCell ← left.deref σ₁
      let comp ← compareCells rt leftCell right.cell
      match compareStop op comp with
      | some c => .value (c, σ₁)
      | none => compareLoop ev op σ₁ right params

/-- `compareOp`. -/
def compareOp (ev : Evaluator) (op : CompareOp) (σ : Interp)
    (params : List Cell) : Outcome Error (Cell × Interp) :=
  match params with
  | [] => .value (.true_, σ)
  | param :: params => do
      let (left, σ₁) ← ev σ param
      match params with
      | [] =>
          match compareDefault left.cell with
          | none => .value (.true_, σ₁)
          | some right => do
              let comp ← compareCells rt left.cell right
              .value ((compareStop op comp).getD .true_, σ₁)
      | _ => compareLoop rt ev op σ₁ left params

/-- `incDecF` on a symbol: `type` is `false` for a decrement. -/
def incDecF (flags : SymbolFlags) (ev : Evaluator) (type : Bool)
    (σ : Interp) (params : List Cell) : Outcome Error (Cell × Interp) :=
  match params with
  | .symbol s :: delta =>
      let place := Val.ofSymbol σ s
      -- a place that is `$it` is another symbol's cell: outside this model
      if s = itSymbol then .undefined
      else if isProtected flags s then .error .symbolProtected
      else do
        let (lValue, σ₁) ←
          if isNil place.cell then .value (Binary64.zero, σ)
          else
            -- `getFloat` evaluates the cell it is given
            do
              let (v, σ₁) ← ev σ place.cell
              let x ← getFloat rt v.cell
              .value (x, σ₁)
        if place.isNilCell then .error .invalidParameter
        else do
          let (adjust, σ₂) ←
            match delta with
            | [] => .value (Binary64.ofInt 1, σ₁)
            | param :: _ => do
                let (v, σ₂) ← ev σ₁ param
                let x ← getFloat rt v.cell
                .value (x, σ₂)
          let _ ← place.deref σ₂
          let x := lValue.add (if type then adjust else adjust.neg)
          .value (.float x, σ₂.overwrite s (.float x))
  -- any other place is outside this model
  | _ => .undefined

end NewLispNeo
