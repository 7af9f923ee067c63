/-
The execution engine of nl-vm.c: the stack machine `executeBytecode` runs, one
instruction a step.
-/
import NewLispNeo.Evaluate
import NewLispNeo.Compiler
import NewLispNeo.StepRun

namespace NewLispNeo

/-- A suspended `VM_FRAME`. -/
structure Frame where
  bytecode : Bytecode
  ip : Nat
  fp : Nat
  selfCell : Cell

/-- The state of one `executeBytecode` as long as nothing else is left on the
arrays it shares with the others.  `vmStack` is the part of the stack above
`start_sp`, bottom first, and `fp` counts from there; an entry is a pointer, so
it is read when it is used.  `frames` are the suspended callers, innermost
first. -/
structure Machine where
  vmStack : List Val
  bytecode : Bytecode
  ip : Nat
  fp : Nat
  currentSelf : Cell
  frames : List Frame
  interp : Interp

/-- What the machine takes from outside: the compiler's context, which the
lambdas called share, the tree-walking evaluator with its loop fuel, what a
call of a namespace, a list, an array, a string or a number does, and what the
other primitives do with the very cells of their operands. -/
structure MachineContext where
  compile : CompileContext
  ev : Evaluator
  fuel : Nat
  implicitIndex : Cell → List Cell → Interp → Outcome Error (Val × Interp)
  primitive : String → List Val → Interp → Outcome Error (Val × Interp)

namespace Machine

def push (m : Machine) (v : Val) : Machine :=
  { m with vmStack := m.vmStack ++ [v] }

/-- `vm_stack[--vm_sp]`. -/
def pop (m : Machine) : Outcome Error (Val × Machine) :=
  match m.vmStack.getLast? with
  | none => .undefined
  | some v => .value (v, { m with vmStack := m.vmStack.dropLast })

/-- Pop a cell and read it. -/
def popCell (m : Machine) : Outcome Error (Cell × Machine) := do
  let (v, m) ← m.pop
  let c ← v.deref m.interp
  .value (c, m)

/-- `*ip++`. -/
def byte (m : Machine) : Outcome Error (UInt8 × Machine) :=
  match m.bytecode.code[m.ip]? with
  | none => .undefined
  | some b => .value (b, { m with ip := m.ip + 1 })

/-- `(uint16_t)(ip[0] | (ip[1] << 8))`. -/
def uint16 (m : Machine) : Outcome Error (Nat × Machine) := do
  let (lo, m) ← m.byte
  let (hi, m) ← m.byte
  .value (lo.toNat + 256 * hi.toNat, m)

/-- `(int16_t)(ip[0] | (ip[1] << 8))`. -/
def int16 (m : Machine) : Outcome Error (Int × Machine) := do
  let (n, m) ← m.uint16
  .value (if n < 2 ^ 15 then (n : Int) else (n : Int) - 2 ^ 16, m)

/-- `ip += offset`. -/
def jump (m : Machine) (offset : Int) : Outcome Error Machine :=
  if 0 ≤ (m.ip : Int) + offset then
    .value { m with ip := ((m.ip : Int) + offset).toNat }
  else .undefined

def loadLocal (m : Machine) (slot : Nat) : Outcome Error Machine :=
  match m.vmStack[m.fp + slot]? with
  | none => .undefined
  | some v => .value (m.push v)

def storeLocal (m : Machine) (slot : Nat) : Outcome Error Machine := do
  let (v, m) ← m.pop
  .value { m with vmStack := m.vmStack.set (m.fp + slot) v }

/-- The symbol of the next operand. -/
def symbol (m : Machine) : Outcome Error (Symbol × Machine) := do
  let (idx, m) ← m.uint16
  match m.bytecode.symbols[idx]? with
  | none => .undefined
  | some s => .value (s, m)

/-- A 64-bit operation has its own path; other operands go to the primitive, on
cells on the C stack, which evaluates them. -/
def arith (ctx : MachineContext) (op : ArithOp) (a b : Cell) (σ : Interp) :
    Outcome Error (Cell × Interp) :=
  match a, b with
  | .long x, .long y => do
      let z ← intStep op x y
      .value (.long z, σ)
  | a, b => arithmetikOp ctx.compile.runtime ctx.ev op σ [a, b]

/-- `OP_ADD` and its siblings. -/
def binary (ctx : MachineContext) (op : ArithOp) (m : Machine) :
    Outcome Error Machine := do
  let (b, m) ← m.pop
  let (a, m) ← m.popCell
  let b ← b.deref m.interp
  let (c, σ) ← arith ctx op a b m.interp
  .value ({ m with interp := σ }.push (Val.temp c))

/-- `OP_ADD_1`, `OP_SUB_1` and `OP_SUB_2`. -/
def binaryImmediate (ctx : MachineContext) (op : ArithOp) (n : Word)
    (m : Machine) : Outcome Error Machine := do
  let (a, m) ← m.popCell
  let (c, σ) ← arith ctx op a (.long n) m.interp
  .value ({ m with interp := σ }.push (Val.temp c))

/-- `OP_NEG`. -/
def negate (ctx : MachineContext) (m : Machine) : Outcome Error Machine := do
  let (a, m) ← m.popCell
  match a with
  | .long x => .value (m.push (Val.temp (.long (-x))))
  | a => do
      let (c, σ) ←
        arithmetikOp ctx.compile.runtime ctx.ev .subtract m.interp [a]
      .value ({ m with interp := σ }.push (Val.temp c))

/-- `OP_LT` and its siblings: `test` is applied to the sign of `compareCells`. -/
def comparison (ctx : MachineContext) (test : Int → Bool) (m : Machine) :
    Outcome Error Machine := do
  let (b, m) ← m.pop
  let (a, m) ← m.popCell
  let b ← b.deref m.interp
  let comp ← compareCells ctx.compile.runtime a b
  .value (m.push (Val.shared (ofBool (test comp))))

/-- The evaluated operands of a call, quoted for the tree-walker. -/
def quoteArgs (σ : Interp) : List Val → Outcome Error (List Cell)
  | [] => .value []
  | v :: vs => do
      let c ← v.deref σ
      let rest ← quoteArgs σ vs
      .value (.quote c :: rest)

/-- The call of a function that is not bytecode.  A `CELL_QUOTE` holds the
pointer of its operand, which a primitive can write through. -/
def dispatch (ctx : MachineContext) (target : Cell) (args : List Val)
    (σ : Interp) : Outcome Error (Val × Interp) :=
  match target with
  | .primitive (.other name) => ctx.primitive name args σ
  | .primitive p => do
      let argList ← quoteArgs σ args
      callPrimitive ctx.compile.runtime ctx.compile.flags ctx.ev ctx.fuel p σ
        argList
  | .lambda _ contents => do
      let argList ← quoteArgs σ args
      evaluateLambda ctx.ev ctx.compile.flags σ contents argList
  | .expression _ | .array _ | .string _ | .long _ | .bigint _ | .float _ => do
      let argList ← quoteArgs σ args
      ctx.implicitIndex target argList σ
  | _ => .value (Val.nilCell, σ)

/-- A call of what is not bytecode; of a context, that of its default functor. -/
def fallback (ctx : MachineContext) (target : Cell) (args : List Val)
    (σ : Interp) : Outcome Error (Val × Interp) :=
  match target with
  | .context s =>
      let functor := σ.contents ⟨s.name, s.name⟩
      if isNil functor then do
        let argList ← quoteArgs σ args
        ctx.implicitIndex target argList σ
      else dispatch ctx functor args σ
  | target => dispatch ctx target args σ

/-- The bytecode of a lambda: `none` when it cannot be compiled. -/
def bytecodeOf (ctx : MachineContext) (selfSymbol : Option Symbol)
    (contents : List Cell) : Outcome Error (Option Bytecode) :=
  match compileLambda { ctx.compile with selfSymbol := selfSymbol } contents with
  | .value bc => .value (some bc)
  | .error _ => .value none
  | _ => .undefined

/-- Fill up a frame with `nilCell`. -/
def padTo (n : Nat) (vs : List Val) : List Val :=
  vs ++ List.replicate (n - vs.length) Val.nilCell

/-- The frame of a call: missing parameters, then the locals. -/
def frameOf (bc : Bytecode) (args : List Val) : List Val :=
  padTo bc.numLocals (padTo bc.numParams args)

/-- The last `n` entries of the stack. -/
def topOf (m : Machine) (n : Nat) : Outcome Error (List Val × List Val) :=
  if n ≤ m.vmStack.length then
    .value (m.vmStack.splitAt (m.vmStack.length - n))
  else .undefined

/-- Enter the callee on a new frame above `below`.  The argument count is kept
in eight bits while it is padded, so it never reaches 256 parameters. -/
def enter (m : Machine) (below args : List Val) (bc : Bytecode) (self : Cell) :
    Outcome Error Machine :=
  if 256 ≤ bc.numParams then .undefined
  else
    .value
      { m with
        vmStack := below ++ frameOf bc args
        bytecode := bc
        ip := 0
        fp := below.length
        currentSelf := self
        frames := ⟨m.bytecode, m.ip, m.fp, m.currentSelf⟩ :: m.frames }

/-- Enter the callee on the frame of its caller. -/
def reenter (m : Machine) (args : List Val) (bc : Bytecode) (self : Cell) :
    Machine :=
  { m with
    vmStack := m.vmStack.take m.fp ++ frameOf bc args
    bytecode := bc
    ip := 0
    currentSelf := self }

/-- What a step leads to: the next state, or the value `executeBytecode`
returns. -/
abbrev Next := StepRun.Next Machine (Cell × Interp)

/-- `OP_RET`, and the end of a tail call that was not one. -/
def return_ (m : Machine) (v : Val) : Outcome Error Next :=
  match m.frames with
  | [] => do
      let c ← v.deref m.interp
      .value (.done (c, m.interp))
  | caller :: frames =>
      .value (.goOn
        { m with
          vmStack := m.vmStack.take m.fp ++ [v]
          bytecode := caller.bytecode
          ip := caller.ip
          fp := caller.fp
          currentSelf := caller.selfCell
          frames := frames })

/-- `OP_CALL`. -/
def call (ctx : MachineContext) (m : Machine) : Outcome Error Machine := do
  let (argc, m) ← m.byte
  let (below, args) ← m.topOf argc.toNat
  let (target, m) ← { m with vmStack := below }.pop
  let targetFn ← target.deref m.interp
  let bc ←
    match targetFn with
    | .lambda selfSymbol contents => bytecodeOf ctx selfSymbol contents
    | _ => .value none
  match bc with
  | some bc => m.enter m.vmStack args bc targetFn
  | none => do
      let (res, σ) ← fallback ctx targetFn args m.interp
      .value ({ m with interp := σ }.push res)

/-- `OP_CALL_SELF`. -/
def callSelf (m : Machine) : Outcome Error Machine := do
  let (argc, m) ← m.byte
  let (below, args) ← m.topOf argc.toNat
  m.enter below args m.bytecode m.currentSelf

/-- `OP_TAIL_CALL`. -/
def tailCall (ctx : MachineContext) (m : Machine) : Outcome Error Next := do
  let (argc, m) ← m.byte
  let (below, args) ← m.topOf argc.toNat
  let (target, m) ← { m with vmStack := below }.pop
  let targetFn ← target.deref m.interp
  let bc ←
    match targetFn with
    | .lambda selfSymbol contents => bytecodeOf ctx selfSymbol contents
    | _ => .value none
  match bc with
  | some bc => .value (.goOn (m.reenter args bc targetFn))
  | none => do
      let (res, σ) ← fallback ctx targetFn args m.interp
      return_ { m with interp := σ } res

/-- `OP_TAIL_CALL_SELF`. -/
def tailCallSelf (m : Machine) : Outcome Error Machine := do
  let (argc, m) ← m.byte
  let (_, args) ← m.topOf argc.toNat
  .value (m.reenter args m.bytecode m.currentSelf)

/-- `OP_JUMP_IF_NIL` and `OP_JUMP_IF_NOT_NIL`. -/
def jumpIf (onFalsy : Bool) (m : Machine) : Outcome Error Machine := do
  let (offset, m) ← m.int16
  let (cond, m) ← m.popCell
  if isFalsy cond = onFalsy then m.jump offset else .value m

/-- `OP_STORE_GLOBAL`. -/
def storeGlobal (m : Machine) : Outcome Error Machine := do
  let (s, m) ← m.symbol
  let (c, m) ← m.popCell
  .value { m with interp := m.interp.assign s c }

/-- One instruction, its opcode read already, that stays in the frame or enters
a new one. -/
def execute (ctx : MachineContext) (op : VmOpcode) (m : Machine) :
    Outcome Error Machine :=
  match op with
  | .nop => .value m
  | .nil => .value (m.push Val.nilCell)
  | .true_ => .value (m.push (Val.shared .true_))
  | .const => do
      let (idx, m) ← m.uint16
      match m.bytecode.constants[idx]? with
      | none => .undefined
      | some c => .value (m.push (Val.temp c))
  | .pop => do
      let (_, m) ← m.pop
      .value m
  | .dup =>
      match m.vmStack.getLast? with
      | none => .undefined
      | some v => .value (m.push v)
  | .loadLocal => do
      let (slot, m) ← m.uint16
      m.loadLocal slot
  | .storeLocal => do
      let (slot, m) ← m.uint16
      m.storeLocal slot
  | .loadGlobal => do
      let (s, m) ← m.symbol
      let v ← evaluateSymbol m.interp s
      .value (m.push v)
  | .storeGlobal => m.storeGlobal
  | .loadSelf => .value (m.push (Val.temp m.currentSelf))
  | .jump => do
      let (offset, m) ← m.int16
      m.jump offset
  | .jumpIfNil => m.jumpIf true
  | .jumpIfNotNil => m.jumpIf false
  | .lt => m.comparison ctx (· < 0)
  | .gt => m.comparison ctx (0 < ·)
  | .le => m.comparison ctx (· ≤ 0)
  | .ge => m.comparison ctx (0 ≤ ·)
  | .eq => m.comparison ctx (· = 0)
  | .ne => m.comparison ctx (· ≠ 0)
  | .add => m.binary ctx .add
  | .sub => m.binary ctx .subtract
  | .mul => m.binary ctx .multiply
  | .div => m.binary ctx .divide
  | .mod => m.binary ctx .modulo
  | .neg => m.negate ctx
  | .call => m.call ctx
  | .callSelf => m.callSelf
  | .loadLocal0 => m.loadLocal 0
  | .loadLocal1 => m.loadLocal 1
  | .loadLocal2 => m.loadLocal 2
  | .loadLocal3 => m.loadLocal 3
  | .storeLocal0 => m.storeLocal 0
  | .storeLocal1 => m.storeLocal 1
  | .storeLocal2 => m.storeLocal 2
  | .storeLocal3 => m.storeLocal 3
  | .const0 => .value (m.push (Val.temp (.long 0)))
  | .const1 => .value (m.push (Val.temp (.long 1)))
  | .const2 => .value (m.push (Val.temp (.long 2)))
  | .sub1 => m.binaryImmediate ctx .subtract 1
  | .sub2 => m.binaryImmediate ctx .subtract 2
  | .add1 => m.binaryImmediate ctx .add 1
  | .tailCallSelf => m.tailCallSelf
  | .ret | .tailCall => .undefined

/-- One instruction. -/
def step (ctx : MachineContext) (m : Machine) : Outcome Error Next := do
  let (b, m) ← m.byte
  match VmOpcode.ofByte b with
  | none => .undefined
  | some .ret => do
      let (v, m) ← m.pop
      m.return_ v
  | some .tailCall => m.tailCall ctx
  | some op => do
      let m ← m.execute ctx op
      .value (.goOn m)

/-- At most `fuel` instructions. -/
def run (ctx : MachineContext) : Nat → Machine → Outcome Error (Cell × Interp) :=
  StepRun.run (step ctx)

/-- The machine at the first instruction of a call. -/
def start (bc : Bytecode) (self : Cell) (args : List Val) (σ : Interp) :
    Machine :=
  { vmStack := frameOf bc args
    bytecode := bc
    ip := 0
    fp := 0
    currentSelf := self
    frames := []
    interp := σ }

end Machine

/-- `executeBytecode` on a lambda cell that carries `bc`, on its own part of the
arrays. -/
def executeBytecode (ctx : MachineContext) (bc : Bytecode) (self : Cell)
    (σ : Interp) (args : List Cell) : Outcome Error (Cell × Interp) := do
  let (values, σ₁) ← evaluateArgs ctx.ev σ args
  Machine.run ctx ctx.fuel (Machine.start bc self (values.map Val.temp) σ₁)

end NewLispNeo
