/-
The environment stack of newlisp.c: what evaluation can do with the contents of
symbols, and how it can end.
-/
import NewLispNeo.BindingStack
import NewLispNeo.Interp

namespace NewLispNeo.EnvStack

/-- The types of `let`. -/
inductive LetType where
  | std | nest | expand | local_
deriving DecidableEq

/-- The types of `dolist`. -/
inductive DoType where
  | list | tree | args | string
deriving DecidableEq

/-- The types of `repeat`. -/
inductive RepeatType where
  | while_ | doWhile | until_ | doUntil
deriving DecidableEq

/-- The built-in functions: those that bind symbols or catch errors, and the others. -/
inductive Form where
  | let_ (type : LetType)
  | loop (forFlag : Bool)
  | dolist (type : DoType)
  | repeat_ (type : RepeatType)
  | map | series | expand | catch_ | evalString | readExpr
  | other (number : Nat)

/-- A `CELL` with what hangs off it. -/
inductive EnvCell where
  | nil
  | true_
  | long (contents : Word)
  | bigint (contents : Bigint)
  | float (contents : Float)
  | string (contents : List UInt8)
  | symbol (contents : Symbol)
  | context (contents : Symbol)
  | primitive (contents : Form)
  | quote (contents : EnvCell)
  | expression (contents : List EnvCell)
  | lambda (contents : List EnvCell)
  | fexpr (contents : List EnvCell)
  | array (contents : List EnvCell)
  | dynSymbol (context : Symbol) (name : String)
  | imported (function : Nat)

namespace EnvCell

def isNil : EnvCell → Bool
  | nil => true
  | symbol s => s = nilSymbol
  | _ => false

def isEmpty : EnvCell → Bool
  | expression [] => true
  | _ => false

def isNumber : EnvCell → Bool
  | long _ | bigint _ | float _ => true
  | _ => false

def isSelfEval : EnvCell → Bool
  | symbol _ | context _ | quote _ | expression _ | dynSymbol _ _ => false
  | _ => true

/-- The cells of a list. -/
def items : EnvCell → Option (List EnvCell)
  | expression cells | lambda cells | fexpr cells => some cells
  | _ => none

/-- The cells of a list or an array, as `arrayList` makes a list of the latter. -/
def listItems : EnvCell → Option (List EnvCell)
  | array cells => some cells
  | cell => cell.items

end EnvCell

/-- The default functor of a context. -/
def defaultSymbol (context : Symbol) : Symbol := ⟨context.name, context.name⟩

/-- The error numbers of newlisp.h that the modelled code reports. -/
inductive EnvError where
  | outOfCallStack | outOfEnvStack | invalidLambda | invalidMacro | invalidFunction
  | invalidLet | symbolProtected | symbolExpected | listExpected | numberExpected
  | stringExpected | contextExpected | listOrSymbolExpected | symbolOrContextExpected
  | invalidParameterNan | missingArgument | numberOutOfRange
  | primitive (number : Nat)

/-- The value of a `longjmp`: `EXCEPTION_THROW` with `throwResult`, or an error with the
text in `errorStream`. -/
inductive Jump where
  | throw (result : EnvCell)
  | error (message : Option (List UInt8))

/-- What a function that is not modelled here goes on to do: it evaluates cells, calls
functions, reads and assigns symbols and reports errors, and it leaves the environment
stack alone. -/
inductive Work where
  | answer (cell : EnvCell)
  | jump (x : Jump)
  | report (error : EnvError) (cell : EnvCell) (next : Work)
  | evaluate (cell : EnvCell) (next : EnvCell → Work)
  | call (lambda args : List EnvCell) (next : EnvCell → Work)
  | inspect (next : (Symbol → EnvCell) → Work)
  | assign (s : Symbol) (value : EnvCell) (next : Work)
  | delete (s : Symbol) (next : Work)
  | setFlags (s : Symbol) (flags : Nat) (next : Work)
  | setTrace (flag : Nat) (next : Work)
  | setSymbols (context : Symbol) (symbols : List Symbol) (next : Work)
  | prompt (command : EnvCell) (next : Work)
  | callback (call : EnvCell) (next : EnvCell → Work)

/-- The state of the evaluator.  `signals` are the bits that signal handlers will have
set at the next tests of `traceFlag`, and `works` is what the functions that are not
modelled do at their next calls.  `abandoned` is a ghost: a form has returned without
taking its bindings back, or has taken back one it has not made. -/
structure EnvState where
  env : Bindings Symbol EnvCell
  flags : SymbolFlags
  symbols : Symbol → List Symbol
  traceFlag : Nat
  recursionCount : Nat
  signals : List Nat
  works : List Work
  abandoned : Bool

/-- The number of pairs on the environment stack. -/
def EnvState.height (σ : EnvState) : Nat := σ.env.stack.length

/-- How a computation ends, or that it runs on. -/
inductive Completion (α : Type) where
  | value (a : α) (σ : EnvState)
  | raised (x : Jump) (σ : EnvState)
  | undefined
  | running

/-- A computation of the evaluator. -/
def EnvM (α : Type) := EnvState → Completion α

namespace EnvM

variable {α β : Type}

protected def pure (a : α) : EnvM α := fun σ => .value a σ

protected def bind (m : EnvM α) (f : α → EnvM β) : EnvM β := fun σ =>
  match m σ with
  | .value a σ' => f a σ'
  | .raised x σ' => .raised x σ'
  | .undefined => .undefined
  | .running => .running

instance : Monad EnvM where
  pure := EnvM.pure
  bind := EnvM.bind

def get : EnvM EnvState := fun σ => .value σ σ

def modify (f : EnvState → EnvState) : EnvM Unit := fun σ => .value () (f σ)

def jump (x : Jump) : EnvM α := fun σ => .raised x σ

/-- The C program has no defined behaviour from here on. -/
def undefined : EnvM α := fun _ => .undefined

/-- The loop goes on for longer than was looked at. -/
def running : EnvM α := fun _ => .running

end EnvM

/-- `MAX_CPU_STACK` and `MAX_ENV_STACK`, the text of an error message, and which lambdas
are compiled to bytecode. -/
structure Settings where
  maxCpuStack : Nat
  maxEnvStack : Nat
  errorText : EnvError → EnvCell → List UInt8
  compiled : List EnvCell → Bool

open EnvM

/-- A form returns in the middle of its bindings. -/
def abandon : EnvM Unit := modify fun σ => { σ with abandoned := true }

section Symbols

def contents (s : Symbol) : EnvM EnvCell := fun σ => .value (σ.env.contents s) σ

def setContents (s : Symbol) (value : EnvCell) : EnvM Unit :=
  modify fun σ => { σ with env := σ.env.set s value }

def assign (s : Symbol) (value : EnvCell) : EnvM Unit :=
  modify fun σ => { σ with env := σ.env.assign s value }

def protected_ (s : Symbol) : EnvM Bool := fun σ => .value (isProtected σ.flags s) σ

/-- `pushEnvironment(symbol->contents); pushEnvironment(symbol)`: the memory of the stack
ends 16 words above `envStackTop`. -/
def pushEnvironment (S : Settings) (s : Symbol) : EnvM Unit := fun σ =>
  if 2 * (σ.height + 1) ≤ S.maxEnvStack + 16 then
    .value () { σ with env := σ.env.push s }
  else .undefined

/-- `symbol = popEnvironment(); symbol->contents = popEnvironment()`. -/
def popEnvironment : EnvM Symbol := fun σ =>
  match σ.env.pop with
  | none => .undefined
  | some (s, env) => .value s { σ with env := env }

/-- Restore the symbols used as locals. -/
def restoreEnvironment : Nat → EnvM Unit
  | 0 => pure ()
  | localCount + 1 => do
      let _ ← popEnvironment
      restoreEnvironment localCount

end Symbols

section Errors

variable (S : Settings)

/-- The test of `traceFlag`, with the signals that came before it. -/
def tracing : EnvM Bool := fun σ =>
  let flag := σ.traceFlag ||| σ.signals.headD 0
  .value (flag ≠ 0) { σ with traceFlag := flag, signals := σ.signals.tail }

/-- `fatalError`: it closes the trace. -/
def fatalError {α : Type} (error : EnvError) (cell : EnvCell) : EnvM α := fun σ =>
  .raised (.error (some (S.errorText error cell))) { σ with traceFlag := 0 }

/-- `errorProcExt`: while tracing the error is printed, and the program goes on. -/
def errorProcExt (error : EnvError) (cell : EnvCell) : EnvM EnvCell := do
  if ← tracing then pure .nil else fatalError S error cell

/-- `errorProcArgs`. -/
def errorProcArgs (error : EnvError) : List EnvCell → EnvM EnvCell
  | [] => errorProcExt S .missingArgument .nil
  | cell :: _ => errorProcExt S error cell

/-- `return(errorProcExt(..))` of a form that has `bound` symbols on the stack. -/
def leave {α : Type} (bound : Nat) (error : EnvError) (cell : EnvCell) :
    EnvM (Option α) := do
  let _ ← errorProcExt S error cell
  if bound ≠ 0 then abandon
  pure none

end Errors

section Work

variable (S : Settings) (ev : EnvCell → EnvM EnvCell)
  (call : List EnvCell → List EnvCell → EnvM EnvCell)

/-- A command at the prompt of the debugger: the `setjmp` there recovers nothing. -/
def evaluatePrompt (command : EnvCell) : EnvM Unit := fun σ =>
  match ev command σ with
  | .value _ σ' => .value () σ'
  | .raised _ σ' =>
      .value () (if σ'.height = σ.height then σ' else { σ' with abandoned := true })
  | .undefined => .undefined
  | .running => .running

/-- `template`, the simple callback: an error resets the evaluator. -/
def evaluateCallback (cell : EnvCell) : EnvM EnvCell := fun σ =>
  match ev cell σ with
  | .raised _ σ' =>
      .value (.long (-1)) { σ' with
        env := σ'.env.recover 0
        traceFlag := 0
        recursionCount := 0
        abandoned := σ'.abandoned || σ.height != 0 }
  | result => result

/-- A symbol is freed: when it is on the stack its memory will be written to. -/
def deleteSymbol (s : Symbol) : EnvM Unit := fun σ =>
  if s ∈ Bindings.names σ.env.stack then .undefined
  else assign s .nil σ

def Work.run : Work → EnvM EnvCell
  | .answer cell => pure cell
  | .jump x => EnvM.jump x
  | .report error cell next => do
      let _ ← errorProcExt S error cell
      next.run
  | .evaluate cell next => do
      let value ← ev cell
      (next value).run
  | .call lambda args next => do
      let value ← call lambda args
      (next value).run
  | .inspect next => do
      let σ ← get
      (next σ.env.contents).run
  | .assign s value next => do
      EnvStack.assign s value
      next.run
  | .delete s next => do
      deleteSymbol s
      next.run
  | .setFlags s flags next => do
      modify fun σ => { σ with flags := Function.update σ.flags s flags }
      next.run
  | .setTrace flag next => do
      modify fun σ => { σ with traceFlag := flag }
      next.run
  | .setSymbols context symbols next => do
      modify fun σ => { σ with symbols := Function.update σ.symbols context symbols }
      next.run
  | .prompt command next => do
      evaluatePrompt ev command
      next.run
  | .callback cell next => do
      let value ← evaluateCallback ev cell
      (next value).run

/-- A call of a function that is not modelled. -/
def perform : EnvM EnvCell := fun σ =>
  match σ.works with
  | [] => .value .nil σ
  | work :: works => work.run S ev call { σ with works := works }

end Work

end NewLispNeo.EnvStack
