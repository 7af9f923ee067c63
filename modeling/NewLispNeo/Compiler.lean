/-
The bytecode compiler of nl-vm.c: opcodes, the code buffer with its jumps, the
constant and symbol pools, and `compileExpr` and `compileLambda`.
-/
import NewLispNeo.Interp

namespace NewLispNeo

/-- `VM_OPCODE`, in the order of nl-vm.h. -/
inductive VmOpcode where
  | nop | nil | true_ | const | pop | dup
  | loadLocal | storeLocal | loadGlobal | storeGlobal | loadSelf
  | jump | jumpIfNil | jumpIfNotNil | ret
  | lt | gt | le | ge | eq | ne
  | add | sub | mul | div | mod | neg
  | call | callSelf
  | loadLocal0 | loadLocal1 | loadLocal2 | loadLocal3
  | storeLocal0 | storeLocal1 | storeLocal2 | storeLocal3
  | const0 | const1 | const2 | sub1 | sub2 | add1
  | tailCall | tailCallSelf
deriving DecidableEq

namespace VmOpcode

/-- All opcodes, each at its own number. -/
def all : List VmOpcode :=
  [nop, nil, true_, const, pop, dup, loadLocal, storeLocal, loadGlobal,
    storeGlobal, loadSelf, jump, jumpIfNil, jumpIfNotNil, ret, lt, gt, le, ge,
    eq, ne, add, sub, mul, div, mod, neg, call, callSelf, loadLocal0,
    loadLocal1, loadLocal2, loadLocal3, storeLocal0, storeLocal1, storeLocal2,
    storeLocal3, const0, const1, const2, sub1, sub2, add1, tailCall,
    tailCallSelf]

def toByte (op : VmOpcode) : UInt8 := UInt8.ofNat (all.idxOf op)

def ofByte (b : UInt8) : Option VmOpcode := all[b.toNat]?

@[simp] theorem ofByte_toByte (op : VmOpcode) : ofByte op.toByte = some op := by
  cases op <;> rfl

end VmOpcode

/-- A `BYTECODE_OBJ`. -/
structure Bytecode where
  code : List UInt8
  constants : List Cell
  symbols : List Symbol
  numParams : Nat
  numLocals : Nat

/-- The state of the compiler.  A slot without a symbol is one the compiler
made for itself.  `jumps` is no part of the source: for each offset filled in it
records where that is and which position it was meant for. -/
structure Compiler where
  locals : List (Option Symbol)
  maxLocals : Nat
  code : List UInt8
  constants : List Cell
  symbols : List Symbol
  jumps : List (Nat × Int)

/-- `MAX_LOCALS`. -/
def maxLocals : Nat := 256

/-- What the compiler reads besides its own state: the flags of the symbols,
which of them hold an `fexpr`, and the symbol `define` is compiling for. -/
structure CompileContext where
  runtime : Runtime
  flags : SymbolFlags
  holdsFexpr : Symbol → Bool
  selfSymbol : Option Symbol

/-- The result of a compilation.  Once `failed` is set nothing more is emitted
and `compileLambda` returns `NULL`, so that is an error here. -/
abbrev Compilation := Outcome Unit

namespace Compiler

def emitByte (c : Compiler) (b : UInt8) : Compiler :=
  { c with code := c.code ++ [b] }

def emitOp (c : Compiler) (op : VmOpcode) : Compiler := c.emitByte op.toByte

/-- The low byte of a 16-bit operand. -/
def lowByte (val : Int) : UInt8 := UInt8.ofNat (val % 256).toNat

/-- The high byte of a 16-bit operand. -/
def highByte (val : Int) : UInt8 := UInt8.ofNat (val / 256 % 256).toNat

def emitUint16 (c : Compiler) (val : Nat) : Compiler :=
  (c.emitByte (lowByte val)).emitByte (highByte val)

/-- Emit a jump with an open offset and return where the offset is. -/
def emitJump (c : Compiler) (op : VmOpcode) : Nat × Compiler :=
  (c.code.length + 1, (c.emitOp op).emitUint16 0)

/-- Fill in the offset of a jump. -/
def setJump (c : Compiler) (jumpPos : Nat) (offset : Int) : Compiler :=
  { c with
    code := (c.code.set jumpPos (lowByte offset)).set (jumpPos + 1)
      (highByte offset)
    jumps := c.jumps ++ [(jumpPos, (jumpPos + 2 : Int) + offset)] }

/-- Let a jump lead to the end of the code. -/
def patchJump (c : Compiler) (jumpPos : Nat) : Compiler :=
  c.setJump jumpPos (c.code.length - (jumpPos + 2) : Int)

def patchJumps (c : Compiler) (jumps : List Nat) : Compiler :=
  jumps.foldl patchJump c

/-- Let a jump lead back to `loopStart`. -/
def jumpBack (c : Compiler) (loopStart : Nat) : Compiler :=
  let (backJump, c) := c.emitJump .jump
  c.setJump backJump (loopStart - (backJump + 2) : Int)

/-- The bytes of an `int`, lowest first. -/
def intBytes (n : Int) : List UInt8 :=
  [UInt8.ofNat (n % 256).toNat, UInt8.ofNat (n / 256 % 256).toNat,
    UInt8.ofNat (n / 65536 % 256).toNat, UInt8.ofNat (n / 16777216 % 256).toNat]

/-- The `contents` of a bigint cell: its sign and its digits. -/
def bigintBytes (b : Bigint) : List UInt8 :=
  intBytes (if b.negative then -1 else 1) ++ b.digits.flatMap fun (digit : Nat) => intBytes digit

/-- `copyToGen1` copies a bigint as if it were a C string, up to the first byte that is
zero.  It copies all of it only if that is the last. -/
def copiesDigits (b : Bigint) : Bool :=
  (bigintBytes b).idxOf 0 + 1 == (bigintBytes b).length

mutual

/-- `copyToGen1` copies too little of a bigint in the cell, or reads behind it.
Arrays are copied by `copyCell`. -/
def losesDigits : Cell → Bool
  | .bigint b => !copiesDigits b
  | .quote c => losesDigits c
  | .expression l => losesDigitsList l
  | .lambda _ l => losesDigitsList l
  | .fexpr l => losesDigitsList l
  | _ => false

def losesDigitsList : List Cell → Bool
  | [] => false
  | c :: cs => losesDigits c || losesDigitsList cs

end

def copyToGen1 (cell : Cell) : Compilation Cell :=
  if losesDigits cell then .undefined else .value cell

/-- The first constant from `i` on that compares equal to `val`. -/
def findConstant (rt : Runtime) (val : Cell) :
    Nat → List Cell → Compilation (Option Nat)
  | _, [] => .value none
  | i, k :: constants =>
      match compareCells rt k val with
      | .value result =>
          if result = 0 then .value (some i)
          else findConstant rt val (i + 1) constants
      | _ => .undefined

def addConstant (rt : Runtime) (c : Compiler) (val : Cell) :
    Compilation (Nat × Compiler) := do
  let permanentVal ← copyToGen1 val
  match ← findConstant rt permanentVal 0 c.constants with
  | some i => .value (i, c)
  | none =>
      .value (c.constants.length,
        { c with constants := c.constants ++ [permanentVal] })

def addSymbol (c : Compiler) (sym : Symbol) : Nat × Compiler :=
  if sym ∈ c.symbols then (c.symbols.idxOf sym, c)
  else (c.symbols.length, { c with symbols := c.symbols ++ [sym] })

def addLocal (c : Compiler) (sym : Option Symbol) :
    Compilation (Nat × Compiler) :=
  if NewLispNeo.maxLocals ≤ c.locals.length then .error ()
  else
    .value (c.locals.length,
      { c with
        locals := c.locals ++ [sym]
        maxLocals := max c.maxLocals (c.locals.length + 1) })

/-- `c->num_locals = old_locals`. -/
def restoreLocals (c : Compiler) (oldLocals : Nat) : Compiler :=
  { c with locals := c.locals.take oldLocals }

/-- The last of the slots from `i` on that stands for `sym`. -/
def findLocalFrom (sym : Symbol) : Nat → List (Option Symbol) → Option Nat
  | _, [] => none
  | i, l :: locals =>
      match findLocalFrom sym (i + 1) locals with
      | some slot => some slot
      | none => if l = some sym then some i else none

def findLocal (c : Compiler) (sym : Symbol) : Option Nat :=
  findLocalFrom sym 0 c.locals

def emitLoadLocal (c : Compiler) (slot : Nat) : Compiler :=
  match slot with
  | 0 => c.emitOp .loadLocal0
  | 1 => c.emitOp .loadLocal1
  | 2 => c.emitOp .loadLocal2
  | 3 => c.emitOp .loadLocal3
  | slot => (c.emitOp .loadLocal).emitUint16 slot

def emitStoreLocal (c : Compiler) (slot : Nat) : Compiler :=
  match slot with
  | 0 => c.emitOp .storeLocal0
  | 1 => c.emitOp .storeLocal1
  | 2 => c.emitOp .storeLocal2
  | 3 => c.emitOp .storeLocal3
  | slot => (c.emitOp .storeLocal).emitUint16 slot

def emitLoadGlobal (c : Compiler) (sym : Symbol) : Compiler :=
  let (sidx, c) := c.addSymbol sym
  (c.emitOp .loadGlobal).emitUint16 sidx

/-- `OP_DUP` and the store of an assignment. -/
def emitAssign (c : Compiler) (slot : Option Nat) (sym : Symbol) : Compiler :=
  match slot with
  | some slot => (c.emitOp .dup).emitStoreLocal slot
  | none =>
      let (sidx, c) := (c.emitOp .dup).addSymbol sym
      (c.emitOp .storeGlobal).emitUint16 sidx

def emitCall (c : Compiler) (op : VmOpcode) (argc : Nat) : Compiler :=
  (c.emitOp op).emitByte (UInt8.ofNat argc)

/-- The end of an `and`: the failed operands lead to `nil`. -/
def exitAnd (c : Compiler) (exitJumps : List Nat) : Compiler :=
  if exitJumps.isEmpty then c
  else
    let (endJump, c) := c.emitJump .jump
    let c := c.patchJumps exitJumps
    let c := c.emitOp .nil
    c.patchJump endJump

/-- The constant of an `OP_CONST`. -/
def emitConstant (rt : Runtime) (c : Compiler) (val : Cell) :
    Compilation Compiler := do
  let (idx, c) ← c.addConstant rt val
  .value ((c.emitOp .const).emitUint16 idx)

end Compiler

open Compiler

/-- The heads `isSpecialForm` refuses by name. -/
def specialForms : List String :=
  ["letn", "letex", "case", "until", "unless", "if-not", "macro", "find-all",
    "filter", "clean", "index", "catch", "throw", "throw-error", "collect",
    "amb", "dolist", "dotree", "dostring", "for", "for-all", "do-until",
    "do-while", "doargs", "setf", "define", "define-macro", "def-new", "new",
    "quote", "time", "trace", "trace-highlight", "expand", "lambda", "fn",
    "lambda-macro", "fn-macro", "args", "env", "curry", "context", "eval"]

/-- The names `isSpecialForm` accepts although they print like a special form. -/
def inlinedForms : List String :=
  ["if", "when", "cond", "begin", "while", "let", "local", "dotimes"]

def isSpecialForm (ctx : CompileContext) (sym : Symbol) : Bool :=
  if ctx.flags sym &&& (symbolMacro ||| symbolDestructive) ≠ 0 then true
  else if ctx.holdsFexpr sym then true
  else if ctx.flags sym &&& 3 ≠ 0 ∧ sym.name ∉ inlinedForms then true
  else sym.name ∈ specialForms

/-- The slot, the lambda itself or the global a symbol is read from. -/
def compileSymbol (ctx : CompileContext) (sym : Symbol) (c : Compiler) :
    Compiler :=
  match c.findLocal sym with
  | some slot => c.emitLoadLocal slot
  | none =>
      if ctx.selfSymbol = some sym ∨ sym.name = "self" then c.emitOp .loadSelf
      else c.emitLoadGlobal sym

/-- The symbol an assignment stores to: quoted in a `set`, bare in a `setq`. -/
def assignTarget (isSetq : Bool) : Cell → Option Symbol
  | .symbol s => if isSetq then some s else none
  | .quote (.symbol s) => if isSetq then none else some s
  | _ => none

/-- The symbol an `inc` or `dec` works on. -/
def incTarget : Cell → Option Symbol
  | .symbol s => some s
  | .quote (.symbol s) => some s
  | _ => none

def isLong (n : Word) : Cell → Bool
  | .long m => m = n
  | _ => false

/-- The opcodes of the two-operand comparisons. -/
def compareOpcode (name : String) : Option VmOpcode :=
  if name = "<" then some .lt
  else if name = ">" then some .gt
  else if name = "<=" then some .le
  else if name = ">=" then some .ge
  else if name = "=" then some .eq
  else if name = "!=" then some .ne
  else none

/-- The variables of a `local`. -/
def compileVars : List Cell → Compiler → Compilation Compiler
  | [], c => .value c
  | .symbol varSym :: vars, c => do
      let (slot, c) ← c.addLocal (some varSym)
      compileVars vars ((c.emitOp .nil).emitStoreLocal slot)
  | _ :: _, _ => .error ()

section

variable (ctx : CompileContext)

mutual

/-- `compileExpr`. -/
def compileExpr : Cell → Bool → Compiler → Compilation Compiler
  | .nil, _, c => .value (c.emitOp .nil)
  | .true_, _, c => .value (c.emitOp .true_)
  | .long val, _, c =>
      if val = 0 then .value (c.emitOp .const0)
      else if val = 1 then .value (c.emitOp .const1)
      else if val = 2 then .value (c.emitOp .const2)
      else c.emitConstant ctx.runtime (.long val)
  | .float val, _, c => c.emitConstant ctx.runtime (.float val)
  | .string val, _, c => c.emitConstant ctx.runtime (.string val)
  | .quote val, _, c => c.emitConstant ctx.runtime val
  | .symbol sym, _, c => .value (compileSymbol ctx sym c)
  | .expression [], _, c => .value (c.emitOp .nil)
  | .expression (.symbol hsym :: args), isTail, c =>
      if hsym.name = "if" then compileIf args isTail c
      else if hsym.name = "when" then compileWhen args isTail c
      else if hsym.name = "cond" then
        if args.isEmpty then .value (c.emitOp .nil)
        else do
          let (c, endJumps) ← compileClauses args isTail (c.emitOp .nil) []
          .value (c.patchJumps endJumps)
      else if hsym.name = "and" then
        if args.isEmpty then .value (c.emitOp .true_)
        else do
          let (c, exitJumps) ← compileAnd args isTail c []
          .value (c.exitAnd exitJumps)
      else if hsym.name = "or" then
        if args.isEmpty then .value (c.emitOp .nil)
        else do
          let (c, exitJumps) ← compileOr args isTail c []
          .value (c.patchJumps exitJumps)
      else if hsym.name = "begin" then compileBody args isTail c
      else if hsym.name = "while" then compileWhile args c
      else if hsym.name = "let" then compileLet args isTail c
      else if hsym.name = "local" then compileLocal args isTail c
      else if hsym.name = "dotimes" then compileDotimes args c
      else if hsym.name = "setq" then compileSet true args c
      else if hsym.name = "set" then compileSet false args c
      else if hsym.name = "inc" then compileInc .add1 .add args c
      else if hsym.name = "dec" then compileInc .sub1 .sub args c
      else
        match compareOpcode hsym.name with
        | some op => compileCompare op args c
        | none =>
            if hsym.name = "+" then compileAdd args c
            else if hsym.name = "-" then compileSubtract args c
            else if hsym.name = "*" then compileMultiply args c
            else if hsym.name = "/" then compileDivide args c
            else if ctx.selfSymbol = some hsym ∨ hsym.name = "self" then do
              let c ← compileArgs args c
              .value (c.emitCall (if isTail then .tailCallSelf else .callSelf)
                args.length)
            else if isSpecialForm ctx hsym then .error ()
            else do
              let c ← compileArgs args (compileSymbol ctx hsym c)
              .value (c.emitCall (if isTail then .tailCall else .call)
                args.length)
  | .expression (head :: args), isTail, c => do
      let c ← compileExpr head false c
      let c ← compileArgs args c
      .value (c.emitCall (if isTail then .tailCall else .call) args.length)
  | _, _, _ => .error ()

/-- The operands of a call, from left to right. -/
def compileArgs : List Cell → Compiler → Compilation Compiler
  | [], c => .value c
  | arg :: args, c => do
      let c ← compileExpr arg false c
      compileArgs args c

/-- A sequence of expressions whose last value stays on the stack. -/
def compileBody : List Cell → Bool → Compiler → Compilation Compiler
  | [], _, c => .value (c.emitOp .nil)
  | [body], isTail, c => compileExpr body isTail c
  | body :: rest, isTail, c => do
      let c ← compileExpr body false c
      compileBody rest isTail (c.emitOp .pop)

/-- The body of a loop, all values dropped. -/
def compileLoopBody : List Cell → Compiler → Compilation Compiler
  | [], c => .value c
  | body :: rest, c => do
      let c ← compileExpr body false c
      compileLoopBody rest (c.emitOp .pop)

/-- An operand that may be missing. -/
def compileFirst : List Cell → Bool → Compiler → Compilation Compiler
  | [], _, c => .value (c.emitOp .nil)
  | e :: _, isTail, c => compileExpr e isTail c

/-- `(if cond then-expr [else-expr])`. -/
def compileIf : List Cell → Bool → Compiler → Compilation Compiler
  | cond :: thenExpr :: elseExpr, isTail, c => do
      let c ← compileExpr cond false c
      let (elseJump, c) := c.emitJump .jumpIfNil
      let c ← compileExpr thenExpr isTail c
      let (endJump, c) := c.emitJump .jump
      let c := c.patchJump elseJump
      let c ← compileFirst elseExpr isTail c
      .value (c.patchJump endJump)
  | _, _, _ => .error ()

/-- `(when cond body...)`. -/
def compileWhen : List Cell → Bool → Compiler → Compilation Compiler
  | [], _, _ => .error ()
  | [cond], isTail, c => compileExpr cond isTail c
  | cond :: body, isTail, c => do
      let c ← compileExpr cond false c
      let (elseJump, c) := c.emitJump .jumpIfNil
      let c ← compileBody body isTail c
      let (endJump, c) := c.emitJump .jump
      let c := c.patchJump elseJump
      let c := c.emitOp .nil
      .value (c.patchJump endJump)

/-- `(cond (c1 e11...) (c2 e21...) ...)`, with the jumps to its end. -/
def compileClauses : List Cell → Bool → Compiler → List Nat →
    Compilation (Compiler × List Nat)
  | [], _, c, endJumps => .value (c, endJumps)
  | .expression [] :: clauses, isTail, c, endJumps =>
      compileClauses clauses isTail c endJumps
  | .expression (test :: body) :: clauses, isTail, c, endJumps => do
      let c ← compileExpr test false (c.emitOp .pop)
      let (falseJump, c) := (c.emitOp .dup).emitJump .jumpIfNil
      let c ← (if body.isEmpty then .value c
        else compileBody body isTail (c.emitOp .pop) : Compilation Compiler)
      if endJumps.length < 64 then
        let (endJump, c) := c.emitJump .jump
        compileClauses clauses isTail (c.patchJump falseJump)
          (endJumps ++ [endJump])
      else .error ()
  | _ :: _, _, _, _ => .error ()

/-- `(and expr...)`, with the jumps to its failure. -/
def compileAnd : List Cell → Bool → Compiler → List Nat →
    Compilation (Compiler × List Nat)
  | [], _, c, exitJumps => .value (c, exitJumps)
  | [arg], isTail, c, exitJumps => do
      let c ← compileExpr arg isTail c
      .value (c, exitJumps)
  | arg :: args, isTail, c, exitJumps => do
      let c ← compileExpr arg false c
      if exitJumps.length < 64 then
        let (exitJump, c) := c.emitJump .jumpIfNil
        compileAnd args isTail c (exitJumps ++ [exitJump])
      else .error ()

/-- `(or expr...)`, with the jumps to its end. -/
def compileOr : List Cell → Bool → Compiler → List Nat →
    Compilation (Compiler × List Nat)
  | [], _, c, exitJumps => .value (c, exitJumps)
  | [arg], isTail, c, exitJumps => do
      let c ← compileExpr arg isTail c
      .value (c, exitJumps)
  | arg :: args, isTail, c, exitJumps => do
      let c ← compileExpr arg false c
      if exitJumps.length < 64 then
        let (exitJump, c) := (c.emitOp .dup).emitJump .jumpIfNotNil
        compileOr args isTail (c.emitOp .pop) (exitJumps ++ [exitJump])
      else .error ()

/-- `(while cond body...)`. -/
def compileWhile : List Cell → Compiler → Compilation Compiler
  | [], _ => .error ()
  | cond :: body, c => do
      let loopStart := c.code.length
      let c ← compileExpr cond false c
      let (exitJump, c) := c.emitJump .jumpIfNil
      let c ← compileLoopBody body c
      let c := c.jumpBack loopStart
      let c := c.patchJump exitJump
      .value (c.emitOp .nil)

/-- The bindings of a `let`: each variable has its slot before its initialiser
is compiled. -/
def compileBindings : List Cell → Compiler → Compilation Compiler
  | [], c => .value c
  | .expression (.symbol varSym :: initVal) :: bindings, c => do
      let (slot, c) ← c.addLocal (some varSym)
      let c ← compileFirst initVal false c
      compileBindings bindings (c.emitStoreLocal slot)
  | [.symbol varSym], c => do
      let (slot, c) ← c.addLocal (some varSym)
      .value ((c.emitOp .nil).emitStoreLocal slot)
  | .symbol varSym :: initVal :: bindings, c => do
      let (slot, c) ← c.addLocal (some varSym)
      let c ← compileExpr initVal false c
      compileBindings bindings (c.emitStoreLocal slot)
  | _ :: _, _ => .error ()

/-- `(let (var1 val1 ...) body...)` or `(let ((var1 val1) ...) body...)`. -/
def compileLet : List Cell → Bool → Compiler → Compilation Compiler
  | .expression bindings :: body, isTail, c => do
      let oldLocals := c.locals.length
      let c ← compileBindings bindings c
      let c ← compileBody body isTail c
      .value (c.restoreLocals oldLocals)
  | _, _, _ => .error ()

/-- `(local (v1 v2 ...) body...)`. -/
def compileLocal : List Cell → Bool → Compiler → Compilation Compiler
  | .expression vars :: body, isTail, c => do
      let oldLocals := c.locals.length
      let c ← compileVars vars c
      let c ← compileBody body isTail c
      .value (c.restoreLocals oldLocals)
  | _, _, _ => .error ()

/-- `(dotimes (var count) body...)`. -/
def compileDotimes : List Cell → Compiler → Compilation Compiler
  | .expression (.symbol varSym :: countExpr :: _) :: body, c => do
      let oldLocals := c.locals.length
      let (countSlot, c) ← c.addLocal none
      let c ← compileExpr countExpr false c
      let c := c.emitStoreLocal countSlot
      let (varSlot, c) ← c.addLocal (some varSym)
      let c := (c.emitOp .const0).emitStoreLocal varSlot
      let loopStart := c.code.length
      let c := (c.emitLoadLocal varSlot).emitLoadLocal countSlot
      let (exitJump, c) := (c.emitOp .lt).emitJump .jumpIfNil
      let c ← compileLoopBody body
        (if body.isEmpty then (c.emitOp .nil).emitOp .pop else c)
      let c := (c.emitLoadLocal varSlot).emitOp .add1
      let c := (c.emitStoreLocal varSlot).jumpBack loopStart
      let c := c.patchJump exitJump
      .value ((c.emitOp .nil).restoreLocals oldLocals)
  | _, _ => .error ()

/-- `(setq var val ...)` or `(set 'var val ...)`. -/
def compileSet (isSetq : Bool) : List Cell → Compiler → Compilation Compiler
  | [place, val], c =>
      match assignTarget isSetq place with
      | none => .error ()
      | some sym => do
          let slot := c.findLocal sym
          let c ← compileExpr val false c
          .value (c.emitAssign slot sym)
  | place :: val :: pair, c =>
      match assignTarget isSetq place with
      | none => .error ()
      | some sym => do
          let slot := c.findLocal sym
          let c ← compileExpr val false c
          compileSet isSetq pair ((c.emitAssign slot sym).emitOp .pop)
  | _, _ => .error ()

/-- `(inc var [delta])` or `(dec var [delta])`. -/
def compileInc (op1 op : VmOpcode) :
    List Cell → Compiler → Compilation Compiler
  | [], _ => .error ()
  | [arg1], c =>
      match incTarget arg1 with
      | none => .error ()
      | some sym =>
          match c.findLocal sym with
          | some slot =>
              .value (((c.emitLoadLocal slot).emitOp op1).emitAssign
                (some slot) sym)
          | none =>
              .value (((c.emitLoadGlobal sym).emitOp op1).emitAssign none sym)
  | arg1 :: delta :: _, c =>
      match incTarget arg1 with
      | none => .error ()
      | some sym =>
          match c.findLocal sym with
          | some slot => do
              let c ← compileExpr delta false (c.emitLoadLocal slot)
              .value ((c.emitOp op).emitAssign (some slot) sym)
          | none => do
              let c ← compileExpr delta false (c.emitLoadGlobal sym)
              .value ((c.emitOp op).emitAssign none sym)

/-- The comparison operators. -/
def compileCompare (op : VmOpcode) :
    List Cell → Compiler → Compilation Compiler
  | [arg1, arg2], c => do
      let c ← compileExpr arg1 false c
      let c ← compileExpr arg2 false c
      .value (c.emitOp op)
  | _, _ => .error ()

/-- The operands after the first of an arithmetic operator. -/
def compileOperands (op : VmOpcode) :
    List Cell → Compiler → Compilation Compiler
  | [], c => .value c
  | arg :: args, c => do
      let c ← compileExpr arg false c
      compileOperands op args (c.emitOp op)

/-- Arithmetic operator `+`. -/
def compileAdd : List Cell → Compiler → Compilation Compiler
  | [], c => .value (c.emitOp .const0)
  | [arg, arg2], c =>
      if isLong 1 arg2 then do
        let c ← compileExpr arg false c
        .value (c.emitOp .add1)
      else if isLong 1 arg then do
        let c ← compileExpr arg2 false c
        .value (c.emitOp .add1)
      else do
        let c ← compileExpr arg false c
        let c ← compileExpr arg2 false c
        .value (c.emitOp .add)
  | arg :: args, c => do
      let c ← compileExpr arg false c
      compileOperands .add args c

/-- Arithmetic operator `-`. -/
def compileSubtract : List Cell → Compiler → Compilation Compiler
  | [], _ => .error ()
  | [arg], c => do
      let c ← compileExpr arg false c
      .value (c.emitOp .neg)
  | [arg, arg2], c =>
      if isLong 1 arg2 then do
        let c ← compileExpr arg false c
        .value (c.emitOp .sub1)
      else if isLong 2 arg2 then do
        let c ← compileExpr arg false c
        .value (c.emitOp .sub2)
      else do
        let c ← compileExpr arg false c
        let c ← compileExpr arg2 false c
        .value (c.emitOp .sub)
  | arg :: args, c => do
      let c ← compileExpr arg false c
      compileOperands .sub args c

/-- Arithmetic operator `*`. -/
def compileMultiply : List Cell → Compiler → Compilation Compiler
  | [], c => .value (c.emitOp .const1)
  | arg :: args, c => do
      let c ← compileExpr arg false c
      compileOperands .mul args c

/-- Arithmetic operator `/`. -/
def compileDivide : List Cell → Compiler → Compilation Compiler
  | arg :: arg2 :: args, c => do
      let c ← compileExpr arg false c
      compileOperands .div (arg2 :: args) c
  | _, _ => .error ()

end

/-- The parameters of a lambda: the slots, and how many of them come before the
comma. -/
def compileParams : List Cell → Bool → List (Option Symbol) → Nat →
    Compilation (List (Option Symbol) × Nat)
  | [], _, locals, numParams => .value (locals, numParams)
  | .symbol sym :: paramList, inLocals, locals, numParams =>
      if sym.name = "," then compileParams paramList true locals numParams
      else if maxLocals ≤ locals.length then .error ()
      else
        compileParams paramList inLocals (locals ++ [some sym])
          (if inLocals then numParams else numParams + 1)
  -- dynamic or default parameters: fallback to tree walker
  | _ :: _, _, _, _ => .error ()

/-- `compileLambda` on the contents of a lambda cell. -/
def compileLambda : List Cell → Compilation Bytecode
  | .expression params :: body => do
      let (locals, numParams) ← compileParams params false [] 0
      let c ← compileBody ctx body true
        { locals := locals, maxLocals := locals.length, code := [],
          constants := [], symbols := [], jumps := [] }
      .value
        { code := (c.emitOp .ret).code
          constants := c.constants
          symbols := c.symbols
          numParams := numParams
          numLocals := c.maxLocals }
  | _ => .error ()

end

end NewLispNeo
