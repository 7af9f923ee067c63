/-
The structured code of each expression: what `compileExpr` emits, before the
jumps are laid out, as a function of the expression and the slots in scope.
-/
import NewLispNeo.Compiler
import NewLispNeo.StructuredCode

namespace NewLispNeo

open Compiler

/-- The bytes of the operand of an opcode. -/
def VmOpcode.operandWidth : VmOpcode → Nat
  | .const | .loadLocal | .storeLocal | .loadGlobal | .storeGlobal
  | .jump | .jumpIfNil | .jumpIfNotNil => 2
  | .call | .callSelf | .tailCall | .tailCallSelf => 1
  | _ => 0

/-- An instruction that is no jump.  `arg` is the slot of a local or the number
of arguments of a call. -/
structure Instr where
  op : VmOpcode
  arg : Nat

namespace Instr

def width (i : Instr) : Nat := 1 + i.op.operandWidth

/-- The number of slots an instruction needs. -/
def slots (i : Instr) : Nat :=
  match i.op with
  | .loadLocal | .storeLocal => i.arg + 1
  | .loadLocal0 | .storeLocal0 => 1
  | .loadLocal1 | .storeLocal1 => 2
  | .loadLocal2 | .storeLocal2 => 3
  | .loadLocal3 | .storeLocal3 => 4
  | _ => 0

/-- The opcode has no operand and uses no slot. -/
def isPlain (o : VmOpcode) : Bool :=
  o.operandWidth == 0 && (⟨o, 0⟩ : Instr).slots == 0

def loadLocal (slot : Nat) : Instr :=
  match slot with
  | 0 => ⟨.loadLocal0, 0⟩
  | 1 => ⟨.loadLocal1, 1⟩
  | 2 => ⟨.loadLocal2, 2⟩
  | 3 => ⟨.loadLocal3, 3⟩
  | slot => ⟨.loadLocal, slot⟩

def storeLocal (slot : Nat) : Instr :=
  match slot with
  | 0 => ⟨.storeLocal0, 0⟩
  | 1 => ⟨.storeLocal1, 1⟩
  | 2 => ⟨.storeLocal2, 2⟩
  | 3 => ⟨.storeLocal3, 3⟩
  | slot => ⟨.storeLocal, slot⟩

end Instr

abbrev Code := StructuredCode Instr VmOpcode

/-- The bytes of a jump. -/
def jumpWidth : Nat := 3

namespace Code

def op (o : VmOpcode) : Code := .instr ⟨o, 0⟩

def load (slot : Nat) : Code := .instr (.loadLocal slot)

def store (slot : Nat) : Code := .instr (.storeLocal slot)

/-- `test`, and `way` where that holds, else `other`. -/
def branch (test way other : Code) : Code :=
  .block (.block (test ++ .br .jumpIfNil 0 ++ way ++ .br .jump 1) ++ other)

/-- `body` as long as `test` holds. -/
def repeated (test body : Code) : Code :=
  .block (.loop (test ++ .br .jumpIfNil 1 ++ body ++ .br .jump 0)) ++ op .nil

/-- `OP_DUP` and the store of an assignment. -/
def assign : Option Nat → Code
  | some slot => op .dup ++ store slot
  | none => op .dup ++ op .storeGlobal

def call (o : VmOpcode) (argc : Nat) : Code := .instr ⟨o, argc⟩

end Code

open Code

section

variable (ctx : CompileContext)

/-- The slot of a symbol among those in scope. -/
def slotOf (locals : List (Option Symbol)) (sym : Symbol) : Option Nat :=
  findLocalFrom sym 0 locals

def symbolCode (locals : List (Option Symbol)) (sym : Symbol) : Code :=
  match slotOf locals sym with
  | some slot => load slot
  | none =>
      if ctx.selfSymbol = some sym ∨ sym.name = "self" then op .loadSelf
      else op .loadGlobal

/-- The variables of a `local` from a slot on. -/
def varsCode : List Cell → Nat → Code
  | [], _ => .skip
  | _ :: vars, slot => op .nil ++ store slot ++ varsCode vars (slot + 1)

/-- The symbols of a `local`, each with its slot. -/
def varLocals : List Cell → List (Option Symbol)
  | .symbol s :: vars => some s :: varLocals vars
  | _ => []

/-- The symbols of a `let`, each with its slot. -/
def bindingLocals : List Cell → List (Option Symbol)
  | .expression (.symbol s :: _) :: bindings => some s :: bindingLocals bindings
  | [.symbol s] => [some s]
  | .symbol s :: _ :: bindings => some s :: bindingLocals bindings
  | _ => []

mutual

/-- The code of an expression; of what the compiler rejects, any. -/
def exprCode : Cell → Bool → List (Option Symbol) → Code
  | .nil, _, _ => op .nil
  | .true_, _, _ => op .true_
  | .long val, _, _ =>
      if val = 0 then op .const0
      else if val = 1 then op .const1
      else if val = 2 then op .const2
      else op .const
  | .float _, _, _ => op .const
  | .string _, _, _ => op .const
  | .quote _, _, _ => op .const
  | .symbol sym, _, locals => symbolCode ctx locals sym
  | .expression [], _, _ => op .nil
  | .expression (.symbol hsym :: args), isTail, locals =>
      if hsym.name = "if" then ifCode args isTail locals
      else if hsym.name = "when" then whenCode args isTail locals
      else if hsym.name = "cond" then
        if args.isEmpty then op .nil
        else .block (op .nil ++ clausesCode args isTail locals)
      else if hsym.name = "and" then andCode args isTail locals
      else if hsym.name = "or" then
        if args.isEmpty then op .nil else .block (orOperands args isTail locals)
      else if hsym.name = "begin" then bodyCode args isTail locals
      else if hsym.name = "while" then whileCode args locals
      else if hsym.name = "let" then letCode args isTail locals
      else if hsym.name = "local" then localCode args isTail locals
      else if hsym.name = "dotimes" then dotimesCode args locals
      else if hsym.name = "setq" then setCode true args locals
      else if hsym.name = "set" then setCode false args locals
      else if hsym.name = "inc" then incCode .add1 .add args locals
      else if hsym.name = "dec" then incCode .sub1 .sub args locals
      else
        match compareOpcode hsym.name with
        | some o => compareCode o args locals
        | none =>
            if hsym.name = "+" then addCode args locals
            else if hsym.name = "-" then subtractCode args locals
            else if hsym.name = "*" then multiplyCode args locals
            else if hsym.name = "/" then divideCode args locals
            else if ctx.selfSymbol = some hsym ∨ hsym.name = "self" then
              argsCode args locals ++
                call (if isTail then .tailCallSelf else .callSelf) args.length
            else
              symbolCode ctx locals hsym ++ argsCode args locals ++
                call (if isTail then .tailCall else .call) args.length
  | .expression (head :: args), isTail, locals =>
      exprCode head false locals ++ argsCode args locals ++
        call (if isTail then .tailCall else .call) args.length
  | _, _, _ => op .nil

def argsCode : List Cell → List (Option Symbol) → Code
  | [], _ => .skip
  | arg :: args, locals => exprCode arg false locals ++ argsCode args locals

def bodyCode : List Cell → Bool → List (Option Symbol) → Code
  | [], _, _ => op .nil
  | [body], isTail, locals => exprCode body isTail locals
  | body :: rest, isTail, locals =>
      exprCode body false locals ++ op .pop ++ bodyCode rest isTail locals

def loopBodyCode : List Cell → List (Option Symbol) → Code
  | [], _ => .skip
  | body :: rest, locals =>
      exprCode body false locals ++ op .pop ++ loopBodyCode rest locals

def firstCode : List Cell → Bool → List (Option Symbol) → Code
  | [], _, _ => op .nil
  | e :: _, isTail, locals => exprCode e isTail locals

def ifCode : List Cell → Bool → List (Option Symbol) → Code
  | cond :: thenExpr :: elseExpr, isTail, locals =>
      branch (exprCode cond false locals) (exprCode thenExpr isTail locals)
        (firstCode elseExpr isTail locals)
  | _, _, _ => op .nil

def whenCode : List Cell → Bool → List (Option Symbol) → Code
  | [], _, _ => op .nil
  | [cond], isTail, locals => exprCode cond isTail locals
  | cond :: body, isTail, locals =>
      branch (exprCode cond false locals) (bodyCode body isTail locals)
        (op .nil)

def clausesCode : List Cell → Bool → List (Option Symbol) → Code
  | .expression [] :: clauses, isTail, locals =>
      clausesCode clauses isTail locals
  | .expression (test :: body) :: clauses, isTail, locals =>
      .block (op .pop ++ exprCode test false locals ++ op .dup ++
        .br .jumpIfNil 0 ++
        (if body.isEmpty then .skip
          else op .pop ++ bodyCode body isTail locals) ++
        .br .jump 1) ++ clausesCode clauses isTail locals
  | _, _, _ => .skip

/-- The operands of an `and`, which leaves at label 0 when one fails. -/
def andOperands : List Cell → Bool → List (Option Symbol) → Code
  | [], _, _ => .skip
  | [arg], isTail, locals => exprCode arg isTail locals
  | arg :: args, isTail, locals =>
      exprCode arg false locals ++ .br .jumpIfNil 0 ++
        andOperands args isTail locals

def andCode : List Cell → Bool → List (Option Symbol) → Code
  | [], _, _ => op .true_
  | [arg], isTail, locals => exprCode arg isTail locals
  | arg :: args, isTail, locals =>
      .block (.block ((exprCode arg false locals ++ .br .jumpIfNil 0 ++
        andOperands args isTail locals) ++ .br .jump 1) ++ op .nil)

/-- The operands of an `or`, which leaves at label 0 when one holds. -/
def orOperands : List Cell → Bool → List (Option Symbol) → Code
  | [], _, _ => .skip
  | [arg], isTail, locals => exprCode arg isTail locals
  | arg :: args, isTail, locals =>
      exprCode arg false locals ++ op .dup ++ .br .jumpIfNotNil 0 ++
        (op .pop ++ orOperands args isTail locals)

def whileCode : List Cell → List (Option Symbol) → Code
  | [], _ => op .nil
  | cond :: body, locals =>
      repeated (exprCode cond false locals) (loopBodyCode body locals)

def bindingsCode : List Cell → List (Option Symbol) → Code
  | .expression (.symbol s :: initVal) :: bindings, locals =>
      firstCode initVal false (locals ++ [some s]) ++ store locals.length ++
        bindingsCode bindings (locals ++ [some s])
  | [.symbol _], locals => op .nil ++ store locals.length
  | .symbol s :: initVal :: bindings, locals =>
      exprCode initVal false (locals ++ [some s]) ++ store locals.length ++
        bindingsCode bindings (locals ++ [some s])
  | _, _ => .skip

def letCode : List Cell → Bool → List (Option Symbol) → Code
  | .expression bindings :: body, isTail, locals =>
      bindingsCode bindings locals ++
        bodyCode body isTail (locals ++ bindingLocals bindings)
  | _, _, _ => op .nil

def localCode : List Cell → Bool → List (Option Symbol) → Code
  | .expression vars :: body, isTail, locals =>
      varsCode vars locals.length ++
        bodyCode body isTail (locals ++ varLocals vars)
  | _, _, _ => op .nil

def dotimesCode : List Cell → List (Option Symbol) → Code
  | .expression (.symbol s :: countExpr :: _) :: body, locals =>
      exprCode countExpr false (locals ++ [none]) ++ store locals.length ++
        op .const0 ++ store (locals.length + 1) ++
        repeated
          (load (locals.length + 1) ++ load locals.length ++ op .lt)
          ((if body.isEmpty then op .nil ++ op .pop else .skip) ++
            loopBodyCode body (locals ++ [none, some s]) ++
            load (locals.length + 1) ++ op .add1 ++ store (locals.length + 1))
  | _, _ => op .nil

def setCode (isSetq : Bool) : List Cell → List (Option Symbol) → Code
  | [place, val], locals =>
      exprCode val false locals ++
        assign ((assignTarget isSetq place).bind (slotOf locals))
  | place :: val :: pair, locals =>
      exprCode val false locals ++
        assign ((assignTarget isSetq place).bind (slotOf locals)) ++ op .pop ++
        setCode isSetq pair locals
  | _, _ => op .nil

def incCode (op1 o : VmOpcode) : List Cell → List (Option Symbol) → Code
  | [arg1], locals =>
      match (incTarget arg1).bind (slotOf locals) with
      | some slot => load slot ++ op op1 ++ assign (some slot)
      | none => op .loadGlobal ++ op op1 ++ assign none
  | arg1 :: delta :: _, locals =>
      match (incTarget arg1).bind (slotOf locals) with
      | some slot =>
          load slot ++ exprCode delta false locals ++ op o ++
            assign (some slot)
      | none =>
          op .loadGlobal ++ exprCode delta false locals ++ op o ++ assign none
  | _, _ => op .nil

def compareCode (o : VmOpcode) : List Cell → List (Option Symbol) → Code
  | [arg1, arg2], locals =>
      exprCode arg1 false locals ++ exprCode arg2 false locals ++ op o
  | _, _ => op .nil

def operandsCode (o : VmOpcode) : List Cell → List (Option Symbol) → Code
  | [], _ => .skip
  | arg :: args, locals =>
      exprCode arg false locals ++ op o ++ operandsCode o args locals

def addCode : List Cell → List (Option Symbol) → Code
  | [], _ => op .const0
  | [arg, arg2], locals =>
      if isLong 1 arg2 then exprCode arg false locals ++ op .add1
      else if isLong 1 arg then exprCode arg2 false locals ++ op .add1
      else exprCode arg false locals ++ exprCode arg2 false locals ++ op .add
  | arg :: args, locals =>
      exprCode arg false locals ++ operandsCode .add args locals

def subtractCode : List Cell → List (Option Symbol) → Code
  | [], _ => op .nil
  | [arg], locals => exprCode arg false locals ++ op .neg
  | [arg, arg2], locals =>
      if isLong 1 arg2 then exprCode arg false locals ++ op .sub1
      else if isLong 2 arg2 then exprCode arg false locals ++ op .sub2
      else exprCode arg false locals ++ exprCode arg2 false locals ++ op .sub
  | arg :: args, locals =>
      exprCode arg false locals ++ operandsCode .sub args locals

def multiplyCode : List Cell → List (Option Symbol) → Code
  | [], _ => op .const1
  | arg :: args, locals =>
      exprCode arg false locals ++ operandsCode .mul args locals

def divideCode : List Cell → List (Option Symbol) → Code
  | arg :: arg2 :: args, locals =>
      exprCode arg false locals ++ operandsCode .div (arg2 :: args) locals
  | _, _ => op .nil

end

/-- The call of what is no symbol. -/
theorem exprCode_call {head : Cell} (hsym : ∀ s, head ≠ .symbol s) (args : List Cell)
    (isTail : Bool) (locals : List (Option Symbol)) :
    exprCode ctx (.expression (head :: args)) isTail locals =
      exprCode ctx head false locals ++ argsCode ctx args locals ++
        call (if isTail then .tailCall else .call) args.length := by
  rw [exprCode]
  exact hsym

/-- The symbols of a parameter list that get a slot. -/
def paramLocals : List Cell → List (Option Symbol)
  | .symbol s :: params =>
      if s.name = "," then paramLocals params else some s :: paramLocals params
  | _ => []

/-- The code of a lambda. -/
def lambdaCode : List Cell → Code
  | .expression params :: body =>
      bodyCode ctx body true (paramLocals params) ++ op .ret
  | _ => .skip

end

end NewLispNeo
