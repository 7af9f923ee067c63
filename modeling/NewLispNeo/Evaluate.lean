/-
The tree-walking evaluator of newlisp.c: the control, binding and assignment
primitives and `evaluateLambda`.  Every function takes the evaluator that
`evaluateExpression` is at its call.
-/
import NewLispNeo.Arith

namespace NewLispNeo

section Block

variable (ev : Evaluator)

/-- Evaluate the first parameter; a missing one is `nilCell` itself. -/
def evaluateParam (σ : Interp) : List Cell → Outcome Error (Val × Interp)
  | [] => .value (Val.nilCell, σ)
  | param :: _ => ev σ param

/-- The loop of `evaluateBlock`. -/
def evaluateBlockFrom :
    Interp → Val → List Cell → Outcome Error (Val × Interp)
  | σ, result, [] => .value (result, σ)
  | σ, _, cell :: cells => do
      let (result, σ₁) ← ev σ cell
      evaluateBlockFrom σ₁ result cells

/-- `evaluateBlock`, and `p_evalBlock`. -/
def evaluateBlock (σ : Interp) (cells : List Cell) :
    Outcome Error (Val × Interp) :=
  evaluateBlockFrom ev σ Val.nilCell cells

/-- The arguments of a call, evaluated and copied from left to right. -/
def evaluateArgs :
    Interp → List Cell → Outcome Error (List Cell × Interp)
  | σ, [] => .value ([], σ)
  | σ, arg :: args => do
      let (v, σ₁) ← ev σ arg
      let (rest, σ₂) ← evaluateArgs σ₁ args
      .value (v.cell :: rest, σ₂)

end Block

section Flow

variable (ev : Evaluator)

/-- `p_if` after the test of `cell`; `params` are those after the condition. -/
def ifLoop (σ : Interp) (cell : Val) (params : List Cell) :
    Outcome Error (Val × Interp) :=
  match params with
  | [] => .value (cell, σ)
  | [then_] =>
      if isFalsy cell.cell then .value (cell, σ) else ev σ then_
  | then_ :: condition :: params =>
      if isFalsy cell.cell then do
        let (cell, σ₁) ← ev σ condition
        ifLoop σ₁ cell params
      else ev σ then_

/-- `p_if`. -/
def pIf (σ : Interp) (params : List Cell) : Outcome Error (Val × Interp) := do
  let (cell, σ₁) ← evaluateParam ev σ params
  let (cell, σ₂) ← ifLoop ev (σ₁.pointIt cell) cell params.tail
  .value (cell, σ₂.clearIt)

/-- `p_ifNot`. -/
def pIfNot (σ : Interp) (params : List Cell) :
    Outcome Error (Val × Interp) := do
  let (cell, σ₁) ← evaluateParam ev σ params
  evaluateParam ev σ₁
    (if isFalsy cell.cell then params.tail else params.tail.tail)

/-- `p_when`. -/
def pWhen (σ : Interp) (params : List Cell) :
    Outcome Error (Val × Interp) := do
  let (cell, σ₁) ← evaluateParam ev σ params
  if isFalsy cell.cell then .value (cell, σ₁)
  else evaluateBlockFrom ev σ₁ cell params.tail

/-- `p_unless`. -/
def pUnless (σ : Interp) (params : List Cell) :
    Outcome Error (Val × Interp) := do
  let (cell, σ₁) ← evaluateParam ev σ params
  if isFalsy cell.cell then evaluateBlockFrom ev σ₁ cell params.tail
  else .value (cell, σ₁)

/-- The loop of `p_condition`. -/
def conditionLoop :
    Interp → Val → List Cell → Outcome Error (Val × Interp)
  | σ, eval, [] => .value (eval, σ)
  | σ, _, .expression condition :: params => do
      let (eval, σ₁) ← evaluateParam ev σ condition
      if isFalsy eval.cell then conditionLoop σ₁ eval params
      else
        match condition.tail with
        | [] => .value (eval, σ₁)
        | block => evaluateBlock ev σ₁ block
  | _, _, _ :: _ => .error .listExpected

/-- `p_condition`. -/
def pCondition (σ : Interp) (params : List Cell) :
    Outcome Error (Val × Interp) :=
  conditionLoop ev σ Val.nilCell params

/-- The loop of `p_and`. -/
def andLoop : Interp → Val → List Cell → Outcome Error (Val × Interp)
  | σ, result, [] => .value (result, σ)
  | σ, _, param :: params => do
      let (result, σ₁) ← ev σ param
      if isFalsy result.cell then .value (Val.temp result.cell, σ₁)
      else andLoop σ₁ result params

/-- `p_and`. -/
def pAnd (σ : Interp) (params : List Cell) : Outcome Error (Val × Interp) :=
  andLoop ev σ (Val.shared .true_) params

/-- The loop of `p_or`. -/
def orLoop : Interp → Val → List Cell → Outcome Error (Val × Interp)
  | σ, result, [] => .value (Val.temp result.cell, σ)
  | σ, _, param :: params => do
      let (result, σ₁) ← ev σ param
      if isFalsy result.cell then orLoop σ₁ result params
      else .value (result, σ₁)

/-- `p_or`. -/
def pOr (σ : Interp) (params : List Cell) : Outcome Error (Val × Interp) :=
  orLoop ev σ Val.nilCell params

end Flow

/-- The part of `envStack` one form pushes, innermost first. -/
abbrev Environment := List (Symbol × Binding)

/-- Restore the symbols a form has used as locals. -/
def restoreEnvironment : Interp → Environment → Interp
  | σ, [] => σ
  | σ, (s, b) :: saved => restoreEnvironment (σ.setBind s b) saved

section Binding

variable (ev : Evaluator) (flags : SymbolFlags)

/-- Push the symbol's binding and give it a new cell. -/
def pushSymbol (σ : Interp) (saved : Environment) (s : Symbol) (c : Cell) :
    Outcome Error (Interp × Environment) :=
  if isProtected flags s then .error .symbolProtected
  else .value (σ.bindNew s c, (s, σ.bind s) :: saved)

/-- The variables of a `local`. -/
def localBind : Interp → Environment → List Cell →
    Outcome Error (Interp × Environment)
  | σ, saved, [] => .value (σ, saved)
  | σ, saved, .symbol s :: inits => do
      let (σ₁, saved₁) ← pushSymbol flags σ saved s .nil
      localBind σ₁ saved₁ inits
  | _, _, _ :: _ => .error .symbolExpected

/-- The initialisers of a `let`, in the scope outside it, with their symbols. -/
def letInits : Interp → List Cell →
    Outcome Error (List (Symbol × Cell) × Interp)
  | σ, [] => .value ([], σ)
  | σ, .expression (.symbol s :: init) :: inits => do
      let (v, σ₁) ← evaluateParam ev σ init
      let (rest, σ₂) ← letInits σ₁ inits
      .value ((s, v.cell) :: rest, σ₂)
  | _, .expression _ :: _ => .error .symbolExpected
  | σ, [.symbol s] => .value ([(s, .nil)], σ)
  | σ, .symbol s :: init :: inits => do
      let (v, σ₁) ← ev σ init
      let (rest, σ₂) ← letInits σ₁ inits
      .value ((s, v.cell) :: rest, σ₂)
  | _, _ :: _ => .error .invalidLet

/-- Bind the symbols of a `let` to their values. -/
def letBind : Interp → Environment → List (Symbol × Cell) →
    Outcome Error (Interp × Environment)
  | σ, saved, [] => .value (σ, saved)
  | σ, saved, (s, c) :: inits => do
      let (σ₁, saved₁) ← pushSymbol flags σ saved s c
      letBind σ₁ saved₁ inits

/-- The variables of a `letn`, each in the scope of those before it. -/
def letnBind : Interp → Environment → List Cell →
    Outcome Error (Interp × Environment)
  | σ, saved, [] => .value (σ, saved)
  | σ, saved, .expression (.symbol s :: init) :: inits => do
      if isProtected flags s then .error .symbolProtected
      let (v, σ₁) ← evaluateParam ev σ init
      let (σ₂, saved₂) ← pushSymbol flags σ₁ saved s v.cell
      letnBind σ₂ saved₂ inits
  | _, _, .expression _ :: _ => .error .symbolExpected
  | σ, saved, [.symbol s] => pushSymbol flags σ saved s .nil
  | σ, saved, .symbol s :: init :: inits => do
      if isProtected flags s then .error .symbolProtected
      let (v, σ₁) ← ev σ init
      let (σ₂, saved₂) ← pushSymbol flags σ₁ saved s v.cell
      letnBind σ₂ saved₂ inits
  | _, _, _ :: _ => .error .invalidLet

/-- The body of `let`, whose values are copied one by one. -/
def letBody (σ : Interp) (saved : Environment) (body : List Cell) :
    Outcome Error (Val × Interp) := do
  let (result, σ₁) ← evaluateBlock ev σ body
  let v := if body = [] then Val.nilCell else Val.temp result.cell
  .value (v, restoreEnvironment σ₁ saved)

/-- `let(params, LET_STD)`. -/
def pLet (σ : Interp) : List Cell → Outcome Error (Val × Interp)
  | .expression inits :: body => do
      let (list, σ₁) ← letInits ev σ inits
      let (σ₂, saved) ← letBind flags σ₁ [] list
      letBody ev σ₂ saved body
  | _ => .error .invalidLet

/-- `let(params, LET_NEST)`. -/
def pLetn (σ : Interp) : List Cell → Outcome Error (Val × Interp)
  | .expression inits :: body => do
      let (σ₁, saved) ← letnBind ev flags σ [] inits
      letBody ev σ₁ saved body
  | _ => .error .invalidLet

/-- `let(params, LET_LOCAL)`. -/
def pLocal (σ : Interp) : List Cell → Outcome Error (Val × Interp)
  | .expression inits :: body => do
      let (σ₁, saved) ← localBind flags σ [] inits
      letBody ev σ₁ saved body
  | _ => .error .invalidLet

/-- `setDefine(symbol, params, SET_SET)`. -/
def setDefine (σ : Interp) (s : Symbol) (param : Cell) :
    Outcome Error (Val × Interp) := do
  if isProtected flags s then .error .symbolProtected
  let (v, σ₁) ← ev σ param
  let σ₂ := σ₁.assign s v.cell
  .value (Val.ofSymbol σ₂ s, σ₂)

/-- `getSymbol`. -/
def getSymbol (σ : Interp) (params : List Cell) :
    Outcome Error (Symbol × Interp) := do
  let (v, σ₁) ← evaluateParam ev σ params
  match v.cell with
  | .symbol s => .value (s, σ₁)
  | .dynSymbol _ _ => .undefined
  | _ => .error (if params = [] then .missingArgument else .symbolExpected)

/-- `p_set`. -/
def pSet (σ : Interp) (params : List Cell) : Outcome Error (Val × Interp) :=
  match params with
  | place :: param :: next => do
      let (s, σ₁) ← getSymbol ev σ [place]
      let (v, σ₂) ← setDefine ev flags σ₁ s param
      match next with
      | [] => .value (v, σ₂)
      | next => pSet σ₂ next
  | params => do
      let _ ← getSymbol ev σ params
      .error .missingArgument

/-- `p_setf`, for places that are symbols. -/
def pSetf (σ : Interp) (params : List Cell) : Outcome Error (Val × Interp) :=
  match params with
  | .symbol s :: param :: next => do
      if s = itSymbol then .undefined
      let cell := Val.ofSymbol σ s
      if (σ.bind s).id = 0 then .error .isNotReferenced
      if isProtected flags s then .error .symbolProtected
      let (new, σ₁) ← ev (σ.pointIt cell) param
      let σ₂ := σ₁.clearIt
      -- `cell` is still held: it must not have been freed meanwhile
      let _ ← cell.deref σ₂
      let σ₃ := σ₂.overwrite s new.cell
      match next with
      | [] => .value (Val.ofSymbol σ₃ s, σ₃)
      | next => pSetf σ₃ next
  | _ :: _ :: _ => .undefined
  | _ => .error .missingArgument

end Binding

section Loops

variable (rt : Runtime) (ev : Evaluator) (flags : SymbolFlags)

/-- `cellIdx->contents += 1`, on the cell `initIteratorIndex` has made. -/
def stepIteratorIndex (σ : Interp) (cellIdx : Nat) : Outcome Error Interp :=
  if (σ.bind listIdxSymbol).id = cellIdx then
    match σ.contents listIdxSymbol with
    | .long n => .value (σ.overwrite listIdxSymbol (.long (n + 1)))
    | _ => .value σ
  else .undefined

/-- The loop of `repeat(params, REPEAT_WHILE)`, at most `fuel` rounds. -/
def repeatLoop (cellIdx : Nat) (condition : List Cell) (body : List Cell) :
    Nat → Interp → Val → Outcome Error (Val × Interp)
  | 0, _, _ => .timeout
  | fuel + 1, σ, result => do
      let (cell, σ₁) ← evaluateParam ev σ condition
      if isFalsy cell.cell then .value (result, σ₁)
      else do
        let (result, σ₂) ← evaluateBlock ev σ₁ body
        let σ₃ ← stepIteratorIndex σ₂ cellIdx
        repeatLoop cellIdx condition body fuel σ₃ result

/-- `repeat(params, REPEAT_WHILE)`. -/
def pWhile (fuel : Nat) (σ : Interp) (params : List Cell) :
    Outcome Error (Val × Interp) := do
  let idxSave := σ.bind listIdxSymbol
  let σ₁ := σ.bindNew listIdxSymbol (.long 0)
  let (result, σ₂) ←
    repeatLoop ev (σ.next + 1) (params.take 1) params.tail fuel σ₁
      Val.nilCell
  let σ₃ := σ₂.setBind listIdxSymbol idxSave
  let c ← result.deref σ₃
  .value (⟨c, result.src⟩, σ₃)

/-- The loop of `loop(params, 0)`: `count` rounds are left, `i` are done. -/
def dotimesLoop (symbol : Symbol) (cond : Option Cell) (block : List Cell) :
    Nat → Nat → Interp → Val → Outcome Error (Val × Interp)
  | 0, _, σ, cell => .value (cell, σ)
  | count + 1, i, σ, _ => do
      let σ₁ := σ.assign symbol (.long (BitVec.ofNat 64 i))
      match cond with
      | none => do
          let (cell, σ₂) ← evaluateBlock ev σ₁ block
          dotimesLoop symbol cond block count (i + 1) σ₂ cell
      | some test => do
          let (cell, σ₂) ← ev σ₁ test
          if isNil cell.cell then do
            let (cell, σ₃) ← evaluateBlock ev σ₂ block
            dotimesLoop symbol cond block count (i + 1) σ₃ cell
          else .value (cell, σ₂)

/-- A pointer to the loop variable is copied before that is restored. -/
def loopResult (symbol : Symbol) (cell : Val) (c : Cell) : Val :=
  match cell.src with
  | .symbol s id => if s = symbol then Val.temp c else ⟨c, .symbol s id⟩
  | src => ⟨c, src⟩

/-- `loop(params, 0)`, without the loops on floats. -/
def pDotimes (σ : Interp) : List Cell → Outcome Error (Val × Interp)
  | .expression (.symbol symbol :: header) :: block => do
      if isProtected flags symbol then .error .symbolProtected
      let saved := σ.bind symbol
      let σ₁ := σ.bindNil symbol
      match header with
      | _ :: _ :: _ :: _ => .undefined
      | header => do
          let (v, σ₂) ← evaluateParam ev σ₁ header
          let stepCnt ←
            if header = [] then .error .missingArgument
            else getInteger64 rt v.cell
          let (cell, σ₃) ← dotimesLoop ev symbol header.tail.head? block
            stepCnt.toInt.toNat 0 σ₂ Val.nilCell
          let c ← cell.deref σ₃
          .value (loopResult symbol cell c, σ₃.setBind symbol saved)
  | .expression _ :: _ => .error .symbolExpected
  | _ => .error .listExpected

end Loops

section Lambda

variable (ev : Evaluator) (flags : SymbolFlags)

/-- Bind the parameters of a lambda, from left to right, to the arguments in
`result`; what is left of these comes back. -/
def bindParams : Interp → Environment → List Cell → List Cell →
    Outcome Error (Interp × Environment × List Cell)
  | σ, saved, .symbol s :: locals, result => do
      let (σ₁, saved₁) ← pushSymbol flags σ saved s (result.headD .nil)
      bindParams σ₁ saved₁ locals result.tail
  | σ, saved, .expression (.symbol s :: value) :: locals, [] => do
      let (v, σ₁) ← evaluateParam ev σ value
      let (σ₂, saved₂) ← pushSymbol flags σ₁ saved s v.cell
      bindParams σ₂ saved₂ locals []
  | σ, saved, .expression (.symbol s :: _) :: locals, result => do
      let (σ₁, saved₁) ← pushSymbol flags σ saved s (result.headD .nil)
      bindParams σ₁ saved₁ locals result.tail
  | σ, saved, _, result => .value (σ, saved, result)

/-- `evaluateLambda`. -/
def evaluateLambda (σ : Interp) (localLst : List Cell) (arg : List Cell) :
    Outcome Error (Val × Interp) :=
  match localLst with
  | .expression locals :: body => do
      let (result, σ₁) ← evaluateArgs ev σ arg
      let (σ₂, saved, result) ← bindParams ev flags σ₁ [] locals result
      -- unassigned arguments go to the protected `$args`
      let saved := (argsSymbol, σ₂.bind argsSymbol) :: saved
      let σ₃ := σ₂.bindNew argsSymbol (.expression result)
      let (v, σ₄) ← evaluateBlock ev σ₃ body
      .value (Val.temp v.cell, restoreEnvironment σ₄ saved)
  | _ => .error .invalidLambda

end Lambda

/-- The built-in functions, called on their unevaluated parameters. -/
def callPrimitive (rt : Runtime) (flags : SymbolFlags) (ev : Evaluator)
    (fuel : Nat) (p : Primitive) (σ : Interp) (params : List Cell) :
    Outcome Error (Val × Interp) :=
  let new := fun r : Outcome Error (Cell × Interp) => do
    let (c, σ) ← r
    .value (Val.temp c, σ)
  -- `nilCell` or `trueCell`
  let verdict := fun r : Outcome Error (Cell × Interp) => do
    let (c, σ) ← r
    .value (Val.shared c, σ)
  match p with
  | .if_ => pIf ev σ params
  | .ifNot => pIfNot ev σ params
  | .when => pWhen ev σ params
  | .unless => pUnless ev σ params
  | .condition => pCondition ev σ params
  | .and => pAnd ev σ params
  | .or => pOr ev σ params
  | .evalBlock => evaluateBlock ev σ params
  | .while_ => pWhile ev fuel σ params
  | .dotimes => pDotimes rt ev flags σ params
  | .let_ => pLet ev flags σ params
  | .letn => pLetn ev flags σ params
  | .local_ => pLocal ev flags σ params
  | .set => pSet ev flags σ params
  | .setf => pSetf ev flags σ params
  | .add => new (arithmetikOp rt ev .add σ params)
  | .subtract => new (arithmetikOp rt ev .subtract σ params)
  | .multiply => new (arithmetikOp rt ev .multiply σ params)
  | .divide => new (arithmetikOp rt ev .divide σ params)
  | .modulo => new (arithmetikOp rt ev .modulo σ params)
  | .less => verdict (compareOp rt ev .less σ params)
  | .greater => verdict (compareOp rt ev .greater σ params)
  | .lessEqual => verdict (compareOp rt ev .lessEqual σ params)
  | .greaterEqual => verdict (compareOp rt ev .greaterEqual σ params)
  | .equal => verdict (compareOp rt ev .equal σ params)
  | .notEqual => verdict (compareOp rt ev .notEqual σ params)
  | .incrementF => new (incDecF rt flags ev true σ params)
  | .decrementF => new (incDecF rt flags ev false σ params)
  | .other _ => .undefined

end NewLispNeo
