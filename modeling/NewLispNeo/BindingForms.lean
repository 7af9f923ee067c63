/-
The forms of newlisp.c that bind symbols or catch errors, and `evaluateExpression`
over them.  Every form takes the evaluator that `evaluateExpression` is at its call.
-/
import NewLispNeo.EnvStack

namespace NewLispNeo.EnvStack

open EnvM

variable (S : Settings) (ev : EnvCell → EnvM EnvCell)

section Parameters

/-- Evaluate the first parameter; a missing one is `nilCell` itself. -/
def evaluateParam (params : List EnvCell) : EnvM EnvCell := ev (params.headD .nil)

/-- The loop of `evaluateBlock`. -/
def evaluateBlock : EnvCell → List EnvCell → EnvM EnvCell
  | result, [] => pure result
  | _, cell :: cells => do
      let result ← ev cell
      evaluateBlock result cells

/-- The arguments of a call, evaluated and copied from left to right. -/
def evaluateArgs : List EnvCell → EnvM (List EnvCell)
  | [] => pure []
  | arg :: args => do
      let value ← ev arg
      let values ← evaluateArgs args
      pure (value :: values)

/-- `getFlag`. -/
def getFlag (params : List EnvCell) : EnvM Bool := do
  let cell ← evaluateParam ev params
  pure !cell.isNil

/-- The value of `bigintToInt64`: it wraps after the error for a number out of range. -/
def bigintToInt64 (contents : Bigint) : EnvM Int := do
  let size := contents.digits.foldl (fun n digit => n * 1000000000 + Int.ofNat digit) 0
  let number := if contents.negative then -size else size
  if number < -9223372036854775808 ∨ 9223372036854775807 < number then
    let _ ← errorProcExt S .numberOutOfRange .nil
  pure (BitVec.ofInt 64 number).toInt

/-- `getInteger64Ext`: after an error it reads `0`, and no parameters are left. -/
def getInteger64 (params : List EnvCell) : EnvM (Int × List EnvCell) := do
  match ← evaluateParam ev params with
  | .long contents => pure (contents.toInt, params.tail)
  | .float contents => pure (contents.toInt64.toInt, params.tail)
  | .bigint contents => do
      let number ← bigintToInt64 S contents
      pure (number, params.tail)
  | _ => do
      let _ ← errorProcArgs S .numberExpected params
      pure (0, [])

/-- `getFloat`. -/
def getFloat (params : List EnvCell) : EnvM (Float × List EnvCell) := do
  match ← evaluateParam ev params with
  | .long contents => pure (Float.ofInt contents.toInt, params.tail)
  | .float contents => pure (contents, params.tail)
  | .bigint contents =>
      let size := contents.digits.foldl (fun x digit => x * 1000000000 + Float.ofNat digit) 0
      pure (if contents.negative then -size else size, params.tail)
  | _ => do
      let _ ← errorProcArgs S .numberExpected params
      pure (0, [])

/-- `getEvalDefault`: a context stands for its default functor. -/
def getEvalDefault (params : List EnvCell) : EnvM EnvCell := do
  match ← evaluateParam ev params with
  | .context context => contents (defaultSymbol context)
  | cell => pure cell

/-- `getDynamicSymbol`. -/
def getDynamicSymbol (context : Symbol) (name : String) : EnvM Symbol := do
  match ← contents context with
  | .context context => pure ⟨context.name, name⟩
  | _ => fatalError S .contextExpected (.symbol context)

/-- `getSymbol`: after an error it reads `nil`. -/
def getSymbol (params : List EnvCell) : EnvM Symbol := do
  match ← evaluateParam ev params with
  | .symbol s => pure s
  | .dynSymbol context name => getDynamicSymbol S context name
  | _ => do
      let _ ← errorProcArgs S .symbolExpected params
      pure nilSymbol

/-- `getString`: after an error it reads an empty one, and no parameters are left. -/
def getString (params : List EnvCell) : EnvM (List UInt8 × List EnvCell) := do
  match ← getEvalDefault ev params with
  | .string contents => pure (contents, params.tail)
  | _ => do
      let _ ← errorProcArgs S .stringExpected params
      pure ([], [])

/-- The test of `getContext`: after an error its callers follow a pointer to no context. -/
def checkContext (params : List EnvCell) (context : Symbol) : EnvM Symbol := do
  match ← contents context with
  | .context _ => pure context
  | _ => do
      let _ ← errorProcExt S .contextExpected (params.headD .nil)
      undefined

/-- `getContext`. -/
def getContext (params : List EnvCell) : EnvM Symbol := do
  match ← evaluateParam ev params with
  | .context context | .symbol context => checkContext S params context
  | _ => do
      let _ ← errorProcArgs S .contextExpected params
      undefined

end Parameters

section Expand

/-- The names `expand` replaces without a symbol: upper case ones with contents. -/
def expandable (contents : Symbol → EnvCell) (s : Symbol) : Bool :=
  match s.name.toList with
  | [] => false
  | c :: _ => 64 < c.toNat && c.toNat < 91 &&
      match contents s with
      | .nil | .expression [] | .lambda [] | .fexpr [] | .array [] => false
      | .symbol t => t ≠ nilSymbol
      | _ => true

mutual

/-- A cell inside the expression that `expand` goes through. -/
def expandCell (contents : Symbol → EnvCell) (symbol : Option Symbol) : EnvCell → EnvCell
  | .symbol s =>
      if symbol.elim (expandable contents s) (· = s) then contents s else .symbol s
  | .quote cell => .quote (expandCell contents symbol cell)
  | .expression cells => .expression (expandCells contents symbol cells)
  | .lambda cells => .lambda (expandCells contents symbol cells)
  | .fexpr cells => .fexpr (expandCells contents symbol cells)
  | cell => cell

def expandCells (contents : Symbol → EnvCell) (symbol : Option Symbol) :
    List EnvCell → List EnvCell
  | [] => []
  | cell :: cells => expandCell contents symbol cell :: expandCells contents symbol cells

end

/-- `expand`; a symbol alone is replaced by its contents when it is the given one. -/
def expand (contents : Symbol → EnvCell) (symbol : Option Symbol) : EnvCell → EnvCell
  | .symbol s => if symbol = some s then contents s else .symbol s
  | cell => expandCell contents symbol cell

/-- `blockExpand`. -/
def blockExpand (contents : Symbol → EnvCell) (block : List EnvCell) (s : Symbol) :
    List EnvCell :=
  block.map (expand contents (some s))

end Expand

section Let

/-- The symbols of a binding list with their expressions, up to what is no binding:
`((s1 e1) (s2 e2) ...)` or `(s1 e1 s2 e2 ...)`. -/
def letInits : List EnvCell → List (Symbol × EnvCell) × Option (EnvError × EnvCell)
  | [] => ([], none)
  | .expression (.symbol s :: values) :: inits =>
      ((s, values.headD .nil) :: (letInits inits).1, (letInits inits).2)
  | .expression contents :: _ => ([], some (.symbolExpected, .expression contents))
  | [.symbol s] => ([(s, .nil)], none)
  | .symbol s :: value :: inits => ((s, value) :: (letInits inits).1, (letInits inits).2)
  | init :: _ => ([], some (.invalidLet, init))

/-- The symbols of `local`. -/
def letLocal : List EnvCell → Nat → EnvM (Option Nat)
  | [], localCount => pure (some localCount)
  | .symbol s :: inits, localCount => do
      if ← protected_ s then leave S localCount .symbolProtected (.symbol s)
      else do
        pushEnvironment S s
        setContents s .nil
        letLocal inits (localCount + 1)
  | init :: _, localCount => leave S localCount .symbolExpected init

/-- The bindings of `letn`: each is made when its expression has been evaluated. -/
def letNest : List (Symbol × EnvCell) → Nat → EnvM (Option Nat)
  | [], localCount => pure (some localCount)
  | (s, value) :: inits, localCount => do
      if ← protected_ s then leave S localCount .symbolProtected (.symbol s)
      else do
        let value ← ev value
        pushEnvironment S s
        setContents s value
        letNest inits (localCount + 1)

/-- The bindings of `let` and `letex`, after all expressions have been evaluated. -/
def letBind (expanding : Bool) :
    List (Symbol × EnvCell) → List EnvCell → Nat → EnvM (Option (List EnvCell × Nat))
  | [], body, localCount => pure (some (body, localCount))
  | (s, value) :: inits, body, localCount => do
      if ← protected_ s then leave S localCount .symbolProtected (.symbol s)
      else do
        pushEnvironment S s
        setContents s value
        let σ ← get
        letBind expanding inits
          (if expanding then blockExpand σ.env.contents body s else body) (localCount + 1)

/-- The bindings of a `let`, with the body and the number of symbols bound. -/
def letBindings (inits body : List EnvCell) (type : LetType) :
    EnvM (Option (List EnvCell × Nat)) := do
  match type with
  | .local_ => do
      let bound ← letLocal S inits 0
      pure (bound.map fun localCount => (body, localCount))
  | .nest => do
      match ← letNest S ev (letInits inits).1 0 with
      | none => pure none
      | some localCount =>
          match (letInits inits).2 with
          | some (error, cell) => leave S localCount error cell
          | none => pure (some (body, localCount))
  | type => do
      let values ← evaluateArgs ev ((letInits inits).1.map Prod.snd)
      match (letInits inits).2 with
      | some (error, cell) => leave S 0 error cell
      | none =>
          letBind S (type == .expand) (((letInits inits).1.map Prod.fst).zip values) body 0

/-- The body of a form whose bindings have been made, and their end. -/
def evaluateLocals : Option (List EnvCell × Nat) → EnvM EnvCell
  | none => pure .nil
  | some (body, localCount) => do
      let result ← evaluateBlock ev .nil body
      restoreEnvironment localCount
      pure result

/-- `let`. -/
def let_ (params : List EnvCell) (type : LetType) : EnvM EnvCell :=
  match params with
  | .expression inits :: body => do
      let bound ← letBindings S ev inits body type
      evaluateLocals ev bound
  | params => errorProcExt S .invalidLet (params.headD .nil)

end Let

section Lambda

/-- The next parameter of a lambda with its default. -/
def parameter : EnvCell → Option (Symbol × List EnvCell)
  | .symbol s => some (s, [])
  | .expression (.symbol s :: default) => some (s, default)
  | _ => none

/-- A parameter without an argument takes the value of its default. -/
def defaultArgument (isMacro : Bool) (local_ : EnvCell) (default args : List EnvCell) :
    EnvM (List EnvCell) := do
  match local_, args with
  | .expression _, [] => do
      let value ← evaluateParam ev default
      -- the cell of a constant is in the list of the default
      pure (value :: if isMacro && value.isSelfEval then default.tail else [])
  | _, args => pure args

/-- The parameters of a lambda get their arguments; those that are left over and the
number of symbols bound. -/
def bindParameters (isMacro : Bool) :
    List EnvCell → List EnvCell → Nat → EnvM (Option (List EnvCell × Nat))
  | [], args, localCount => pure (some (args, localCount))
  | local_ :: locals, args, localCount =>
      match parameter local_ with
      | none => pure (some (args, localCount))
      | some (s, default) => do
          let args ← defaultArgument ev isMacro local_ default args
          if ← protected_ s then leave S localCount .symbolProtected local_
          else do
            pushEnvironment S s
            setContents s (args.headD .nil)
            bindParameters isMacro locals args.tail (localCount + 1)

/-- `$args` takes the arguments that are left over. -/
def bindArgs : Option (List EnvCell × Nat) → EnvM (Option Nat)
  | none => pure none
  | some (args, localCount) => do
      pushEnvironment S argsSymbol
      setContents argsSymbol (.expression args)
      pure (some (localCount + 1))

/-- The common part of `evaluateLambda` and `evaluateLambdaMacro`. -/
def evaluateWith (isMacro : Bool) (locals body args : List EnvCell) : EnvM EnvCell := do
  let bound ← bindParameters S ev isMacro locals args 0
  let bound ← bindArgs S bound
  evaluateLocals ev (bound.map fun localCount => (body, localCount))

/-- `evaluateLambda`. -/
def evaluateLambda (lambda args : List EnvCell) : EnvM EnvCell := do
  let σ ← get
  if S.maxEnvStack < 2 * σ.height then errorProcArgs S .outOfEnvStack []
  else
    match lambda with
    | .expression locals :: body => do
        let values ← evaluateArgs ev args
        evaluateWith S ev false locals body values
    | lambda => errorProcExt S .invalidLambda (lambda.headD .nil)

/-- `evaluateLambdaMacro`: the arguments are not evaluated. -/
def evaluateLambdaMacro (fexpr args : List EnvCell) : EnvM EnvCell := do
  let σ ← get
  if S.maxEnvStack < 2 * σ.height then errorProcArgs S .outOfEnvStack []
  else
    match fexpr with
    | .expression locals :: body => evaluateWith S ev true locals body args
    | fexpr => errorProcExt S .invalidMacro (fexpr.headD .nil)

end Lambda

section Loops

/-- `getPushSymbolParam`, with the symbol and the parameters after it.  After an error
there is no symbol, or one that has not been pushed. -/
def getPushSymbolParam (params : List EnvCell) : EnvM (Option Symbol × List EnvCell) := do
  match params with
  | .expression (.symbol s :: rest) :: _ =>
      if ← protected_ s then do
        let _ ← errorProcExt S .symbolProtected (.symbol s)
        abandon
        pure (some s, [])
      else do
        pushEnvironment S s
        setContents s .nil
        pure (some s, rest)
  | .expression contents :: _ => do
      let _ ← errorProcExt S .symbolExpected (contents.headD .nil)
      pure (none, [])
  | params => do
      let _ ← errorProcExt S .listExpected (params.headD .nil)
      pure (none, [])

/-- The loop variable gets its next value; without a symbol the pointer is null. -/
def setLoopSymbol (symbol : Option Symbol) (value : EnvCell) : EnvM Unit :=
  match symbol with
  | none => undefined
  | some s => setContents s value

/-- `deleteList(symbol->contents)` and the pop at the end of a loop. -/
def popLoopSymbol (symbol : Option Symbol) : EnvM Symbol :=
  match symbol with
  | none => undefined
  | some _ => popEnvironment

def initIteratorIndex : EnvM Unit := do
  pushEnvironment S listIdxSymbol
  setContents listIdxSymbol (.long 0)

def recoverIteratorIndex : EnvM Unit := do
  let _ ← popEnvironment
  pure ()

/-- `if(cellIdx->type == CELL_LONG) cellIdx->contents += 1`. -/
def nextIteratorIndex : EnvM Unit := do
  match ← contents listIdxSymbol with
  | .long index => setContents listIdxSymbol (.long (index + 1))
  | _ => pure ()

/-- The loop of `dotimes` and `for`; `next` is the value of the variable at a step. -/
def loopFrom (symbol : Option Symbol) (next : Int → EnvCell) (forFlag : Bool)
    (stepCnt : Int) (cond : Option EnvCell) (block : List EnvCell) :
    Nat → Int → EnvCell → EnvM EnvCell
  | 0, _, _ => running
  | fuel + 1, i, cell =>
      if stepCnt < i ∨ (!forFlag ∧ i = stepCnt) then pure cell
      else do
        setLoopSymbol symbol (next i)
        let stop ← match cond with
          | none => pure .nil
          | some cond => ev cond
        if !stop.isNil then pure stop
        else do
          let cell ← evaluateBlock ev .nil block
          loopFrom symbol next forFlag stepCnt cond block fuel (i + 1) cell

/-- The number of steps of `loop`, the values of its variable and its condition. -/
def loopSteps (params : List EnvCell) (forFlag : Bool) :
    EnvM (Option (Int × (Int → EnvCell) × Option EnvCell)) := do
  if params.length ≤ 2 then
    if forFlag then do
      let (fromInt, params) ← getInteger64 S ev params
      let (toInt, _) ← getInteger64 S ev params
      let steps := BitVec.ofInt 64 (if fromInt < toInt then toInt - fromInt else fromInt - toInt)
      pure (some (steps.toInt,
        fun i => .long (BitVec.ofInt 64 (if toInt < fromInt then fromInt - i else fromInt + i)),
        none))
    else do
      let (stepCnt, cond) ← getInteger64 S ev params
      pure (some (stepCnt, fun i => .long (BitVec.ofInt 64 i), cond.head?))
  else do
    let (fromFlt, params) ← getFloat S ev params
    let (toFlt, params) ← getFloat S ev params
    let (step, cond) ← getFloat S ev params
    if fromFlt.isNaN || toFlt.isNaN || step.isNaN then leave S 1 .invalidParameterNan .nil
    else
      let step := if step < 0 then -step else step
      let step := if toFlt < fromFlt then -step else step
      let cntFlt := if fromFlt < toFlt then (toFlt - fromFlt) / step else (fromFlt - toFlt) / step
      let cntFlt := if 0 < cntFlt then cntFlt else -cntFlt
      pure (some ((cntFlt + 0.0000000001).floor.toInt64.toInt,
        fun i => .float (fromFlt + Float.ofInt i * step), cond.head?))

/-- `loop`: `dotimes`, or `for` with `forFlag`.  The symbol popped loses its protection. -/
def loop (fuel : Nat) (params : List EnvCell) (forFlag : Bool) : EnvM EnvCell := do
  let (symbol, limits) ← getPushSymbolParam S params
  match ← loopSteps S ev limits forFlag with
  | none => pure .nil
  | some (stepCnt, next, cond) => do
      let cell ← loopFrom ev symbol next forFlag stepCnt cond params.tail fuel 0 .nil
      let s ← popLoopSymbol symbol
      modify fun σ => { σ with
        flags := Function.update σ.flags s (σ.flags s - (σ.flags s &&& symbolProtected)) }
      pure cell

/-- The characters `utf8_wchar` reads from a string, up to its first zero byte. -/
def utf8_wchars : Nat → List UInt8 → List Nat
  | 0, _ => []
  | _, [] => []
  | fuel + 1, c :: str =>
      if c = 0 then []
      else if c &&& 0xc0 = 0xc0 then
        let more := if c &&& 0x3f < 32 then 1 else if c &&& 0x3f < 48 then 2
          else if c &&& 0x3f < 56 then 3 else if c &&& 0x3f < 60 then 4 else 5
        let first := c.toNat % 2 ^ (6 - more)
        (str.take more).foldl (fun chr byte => chr * 64 + byte.toNat % 64) first ::
          utf8_wchars fuel (str.drop more)
      else c.toNat :: utf8_wchars fuel str

/-- The name of a symbol `dotree` goes over only those of a hash with. -/
def isHashKey : EnvCell → Bool
  | .symbol s => s.name.startsWith "_"
  | _ => false

/-- The loop of `dolist` over its worklist. -/
def dolistFrom (symbol : Option Symbol) (type : DoType) (cond : Option EnvCell)
    (block : List EnvCell) : List EnvCell → EnvCell → EnvM EnvCell
  | [], cell => pure cell
  | item :: list, _ => do
      setLoopSymbol symbol item
      if type = .tree && cond.isSome && !isHashKey item then
        dolistFrom symbol type cond block list .nil
      else do
        let stop ← match type, cond with
          | .tree, _ | _, none => pure .nil
          | _, some cond => ev cond
        if !stop.isNil then pure stop
        else do
          let cell ← evaluateBlock ev .nil block
          nextIteratorIndex
          dolistFrom symbol type cond block list cell

/-- The worklist of `dolist` and its condition. -/
def worklist (params : List EnvCell) :
    DoType → EnvM (Option (List EnvCell × Option EnvCell))
  | .list => do
      let list ← getEvalDefault ev params
      match list.listItems with
      | some cells => pure (some (cells, params.tail.head?))
      | none => leave S 2 .listExpected (params.headD .nil)
  | .tree => do
      let context ← getContext S ev params
      let flag ← getFlag ev params.tail
      let σ ← get
      pure (some ((σ.symbols context).map .symbol, if flag then some .true_ else none))
  | .args => do
      let args ← contents argsSymbol
      pure (some (args.listItems.getD [], params.head?))
  | .string => do
      let (str, _) ← getString S ev params
      pure (some ((utf8_wchars str.length str).map fun chr => .long (BitVec.ofNat 64 chr),
        params.tail.head?))

/-- `dolist`, `dotree`, `doargs` and `dostring`. -/
def dolist (params : List EnvCell) (type : DoType) : EnvM EnvCell := do
  let (symbol, limits) ← getPushSymbolParam S params
  initIteratorIndex S
  match ← worklist S ev limits type with
  | none => pure .nil
  | some (list, cond) => do
      let start := if type = .string then limits.headD .nil else .nil
      let cell ← dolistFrom ev symbol type cond params.tail list start
      recoverIteratorIndex
      let _ ← popLoopSymbol symbol
      pure cell

/-- The loop of `repeat`. -/
def repeatFrom (params : List EnvCell) (type : RepeatType) : Nat → EnvCell → EnvM EnvCell
  | 0, _ => running
  | fuel + 1, result => do
      match type with
      | .while_ | .until_ => do
          let cell ← evaluateParam ev params
          if (cell.isNil || cell.isEmpty) = (type = .while_) then
            pure (if type = .until_ && params.length ≤ 1 then cell else result)
          else do
            let result ← evaluateBlock ev .nil params.tail
            nextIteratorIndex
            repeatFrom params type fuel result
      | .doWhile | .doUntil => do
          let result ← evaluateBlock ev .nil params.tail
          let cell ← evaluateParam ev params
          if (cell.isNil || cell.isEmpty) = (type = .doWhile) then
            pure (if type = .doUntil && params.length ≤ 1 then cell else result)
          else do
            nextIteratorIndex
            repeatFrom params type fuel result

/-- `repeat`: `while`, `until`, `do-while` and `do-until`. -/
def repeat_ (fuel : Nat) (params : List EnvCell) (type : RepeatType) : EnvM EnvCell := do
  initIteratorIndex S
  let result ← repeatFrom ev params type fuel .nil
  recoverIteratorIndex
  pure result

/-- The lists after the first of `map`. -/
def mapLists : List EnvCell → EnvM (Option (List (List EnvCell)))
  | [] => pure (some [])
  | param :: params => do
      let cell ← getEvalDefault ev [param]
      match cell.listItems with
      | none => leave S 0 .listExpected cell
      | some cells => do
          let lists ← mapLists params
          pure (lists.map (cells :: ·))

/-- The next arguments from the lists of `map`, up to the first that has none. -/
def mapArgs : List (List EnvCell) → List EnvCell × List (List EnvCell)
  | [] => ([], [])
  | [] :: lists => ([], [] :: lists)
  | (cell :: cells) :: lists =>
      ((if cell.isSelfEval then cell else .quote cell) :: (mapArgs lists).1,
        cells :: (mapArgs lists).2)

/-- The loop of `p_map`, once for each cell of the first list. -/
def mapFrom (function : EnvCell) :
    List EnvCell → List (List EnvCell) → List EnvCell → EnvM (List EnvCell)
  | [], _, results => pure results.reverse
  | cell :: cells, lists, results => do
      let args := mapArgs ([cell] :: lists)
      let value ← ev (.expression (function :: args.1))
      nextIteratorIndex
      mapFrom function cells args.2.tail (value :: results)

/-- `p_map`. -/
def pMap (params : List EnvCell) : EnvM EnvCell := do
  let function ← evaluateParam ev params
  -- a missing first list is looked for all the same
  match ← mapLists S ev (params.tail.headD .nil :: params.tail.tail) with
  | none => pure .nil
  | some lists => do
      initIteratorIndex S
      let results ← mapFrom ev function (lists.headD []) lists.tail []
      recoverIteratorIndex
      pure (.expression results)

/-- The loop of `p_series` with a function. -/
def seriesFrom (function : EnvCell) : Nat → EnvCell → List EnvCell → EnvM (List EnvCell)
  | 0, _, series => pure series.reverse
  | count + 1, cell, series => do
      let cell ← ev (.expression [function, cell])
      nextIteratorIndex
      seriesFrom function count cell (cell :: series)

/-- `getDirectFloat`. -/
def getDirectFloat : EnvCell → Float
  | .long contents => Float.ofInt contents.toInt
  | .float contents => contents
  | .bigint contents => contents.digits.foldl (fun x digit => x * 1000000000 + Float.ofNat digit) 0
  | _ => 0

/-- `p_series`. -/
def pSeries (params : List EnvCell) : EnvM EnvCell := do
  let cell ← evaluateParam ev params
  let function ← evaluateParam ev params.tail
  let (count, _) ← getInteger64 S ev params.tail.tail
  if count ≤ 0 then pure (.expression [])
  else if function.isNumber then
    if !cell.isNumber then errorProcExt S .numberExpected cell
    else
      let factor := getDirectFloat function
      pure (.expression (cell :: (List.range (count.toNat - 1)).map fun i =>
        .float ((List.range (i + 1)).foldl (fun x _ => x * factor) (getDirectFloat cell))))
  else do
    initIteratorIndex S
    let series ← seriesFrom ev function (count.toNat - 1) cell [cell]
    recoverIteratorIndex
    pure (.expression series)

/-- The association list of `p_expand`: each of its symbols is bound for one `expand`. -/
def expandFrom (evalFlag : Bool) : List EnvCell → EnvCell → EnvM (Option EnvCell)
  | [], expr => pure (some expr)
  | .expression (.symbol s :: values) :: list, expr => do
      pushEnvironment S s
      let value ← if evalFlag then evaluateParam ev values else pure (values.headD .nil)
      setContents s value
      let σ ← get
      let _ ← popEnvironment
      expandFrom evalFlag list (EnvStack.expand σ.env.contents (some s) expr)
  | .expression contents :: _, _ => leave S 0 .symbolExpected (contents.headD .nil)
  | cell :: _, _ => leave S 0 .listExpected cell

/-- The symbols of `p_expand` up to an association list. -/
def expandSymbols : List EnvCell → EnvCell → EnvM EnvCell
  | [], expr => pure expr
  | param :: params, expr => do
      match ← ev param with
      | .symbol s => do
          let σ ← get
          expandSymbols params (EnvStack.expand σ.env.contents (some s) expr)
      | .dynSymbol context name => do
          let s ← getDynamicSymbol S context name
          let σ ← get
          expandSymbols params (EnvStack.expand σ.env.contents (some s) expr)
      | .expression list => do
          let evalFlag ← getFlag ev params
          let expanded ← expandFrom S ev evalFlag list expr
          pure (expanded.getD .nil)
      | cell => errorProcExt S .listOrSymbolExpected cell

/-- `p_expand`. -/
def pExpand (params : List EnvCell) : EnvM EnvCell := do
  let expr ← getEvalDefault ev params
  if params.tail.isEmpty then do
    let σ ← get
    pure (EnvStack.expand σ.env.contents none expr)
  else expandSymbols S ev params.tail expr

end Loops

section Handlers

/-- What `p_catch` does with a jump that has come to it. -/
def caught (symbol : Option Symbol) : Jump → EnvM EnvCell
  | .throw result =>
      match symbol with
      | none => pure result
      | some s => do
          assign s result
          pure .true_
  | .error none => pure .nil
  | .error (some message) =>
      match symbol with
      | none => jump (.error (some message))
      | some s => do
          assign s (.string message)
          pure .nil

/-- A computation under a handler, which recovers the environment. -/
def handling (m : EnvM EnvCell) (handler : Jump → EnvM EnvCell) : EnvM EnvCell := fun σ =>
  match m σ with
  | .raised x σ' =>
      handler x { σ' with
        env := σ'.env.recover σ.height
        recursionCount := σ.recursionCount }
  | result => result

/-- What `p_catch` does with the value of its expression. -/
def caughtNothing (symbol : Option Symbol) (result : EnvCell) : EnvM EnvCell :=
  match symbol with
  | none => pure result
  | some s => do
      assign s result
      pure .true_

/-- `p_catch` from where it saves the environment. -/
def catching (cell : EnvCell) (symbol : Option Symbol) : EnvM EnvCell := do
  assign itSymbol .nil
  handling (do
    let result ← ev cell
    caughtNothing symbol result) (caught symbol)

/-- `p_catch`. -/
def pCatch (params : List EnvCell) : EnvM EnvCell := do
  if params.tail.isEmpty then catching ev (params.headD .nil) none
  else do
    let s ← getSymbol S ev params.tail
    if ← protected_ s then errorProcExt S .symbolProtected (.symbol s)
    else catching ev (params.headD .nil) (some s)

/-- `sysEvalString`: what it reads and evaluates is left open, the handler is not. -/
def sysEvalString (proc : List EnvCell) : EnvM EnvCell := do
  if 2 ≤ proc.length then
    let _ ← getInteger64 S ev proc.tail
  match proc with
  | [] => perform S ev (evaluateLambda S ev)
  | proc :: _ =>
      handling (perform S ev (evaluateLambda S ev)) fun _ => ev proc

/-- `evalString`: `getCreateContext` may create a context. -/
def evalString (params : List EnvCell) : EnvM EnvCell := do
  let (_, params) ← getString S ev params
  if params.isEmpty then sysEvalString S ev []
  else do
    let context ← perform S ev (evaluateLambda S ev)
    if context.isNil then
      errorProcExt S .symbolOrContextExpected (params.headD .nil)
    else sysEvalString S ev params.tail

end Handlers

/-- A built-in function; `fuel` bounds the steps of its loops. -/
def callPrimitive (fuel : Nat) (params : List EnvCell) : Form → EnvM EnvCell
  | .let_ type => let_ S ev params type
  | .loop forFlag => loop S ev fuel params forFlag
  | .dolist type => dolist S ev params type
  | .repeat_ type => repeat_ S ev fuel params type
  | .map => pMap S ev params
  | .series => pSeries S ev params
  | .expand => pExpand S ev params
  | .catch_ => pCatch S ev params
  | .evalString | .readExpr => evalString S ev params
  | .other _ => perform S ev (evaluateLambda S ev)

/-- The function of an expression. -/
def evaluateHead : List EnvCell → EnvM EnvCell
  | .symbol s :: _ => contents s
  | .dynSymbol context name :: _ => do
      let s ← getDynamicSymbol S context name
      contents s
  | args => evaluateParam ev args

/-- The call of a function; a list, a string or a number before arguments is indexed or
sliced. -/
def callFunction (fuel : Nat) (cell : EnvCell) (params : List EnvCell) :
    EnvCell → EnvM EnvCell
  | .primitive form => callPrimitive S ev fuel params form
  | .lambda contents =>
      if S.compiled contents then perform S ev (evaluateLambda S ev)
      else evaluateLambda S ev contents params
  | .fexpr contents => evaluateLambdaMacro S ev contents params
  | .imported _ => perform S ev (evaluateLambda S ev)
  | .expression _ | .array _ | .string _ | .long _ | .bigint _ | .float _ =>
      if params.isEmpty then errorProcExt S .invalidFunction cell
      else perform S ev (evaluateLambda S ev)
  | _ => errorProcExt S .invalidFunction cell

/-- A context before arguments stands for its default functor, or is a dictionary. -/
def callContext (fuel : Nat) (cell : EnvCell) (params : List EnvCell) :
    EnvCell → EnvM EnvCell
  | .context context => do
      let function ← contents (defaultSymbol context)
      if function.isNil then perform S ev (evaluateLambda S ev)
      else callFunction S ev fuel cell params function
  | function => callFunction S ev fuel cell params function

/-- `traceEntry` and `traceExit`, which may ask for commands. -/
def trace : EnvM Unit := do
  if ← tracing then
    let _ ← perform S ev (evaluateLambda S ev)

/-- An expression whose function is `args->contents`. -/
def evaluateList (fuel : Nat) (args : List EnvCell) : EnvM EnvCell := do
  modify fun σ => { σ with recursionCount := σ.recursionCount + 1 }
  let σ ← get
  if S.maxCpuStack < σ.recursionCount then fatalError S .outOfCallStack (.expression args)
  else do
    let function ← evaluateHead S ev args
    trace S ev
    let result ← callContext S ev fuel (.expression args) args.tail function
    trace S ev
    modify fun σ => { σ with recursionCount := σ.recursionCount - 1 }
    pure result

/-- `evaluateExpression`, at most `fuel` calls deep. -/
def evaluateExpression : Nat → EnvCell → EnvM EnvCell
  | 0, _ => running
  | fuel + 1, cell =>
      match cell with
      | .symbol s | .context s => contents s
      | .quote contents => pure contents
      | .expression args => evaluateList S (evaluateExpression fuel) fuel args
      | .dynSymbol context name => do
          let s ← getDynamicSymbol S context name
          contents s
      | cell => pure cell

end NewLispNeo.EnvStack
