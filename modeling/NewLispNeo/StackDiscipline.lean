/-
The stack discipline of compiled code in the VM: one height for each
instruction, at which every activation that nothing is left in reaches it, and
the arrays as they were when it returns.
-/
import NewLispNeo.VmFrames

namespace NewLispNeo

open StructuredCode Code Machine

/-- The instruction takes no more than the `k` operands of its frame, uses none
but the `n` slots, and returns with one operand. -/
def ItemWithin (k n : Nat) : Item Instr VmOpcode → Prop
  | .instr i => i.pops ≤ k ∧ i.slots ≤ n ∧ (i.op = .ret → k = 1)
  | .jump o _ => o.jumpPops ≤ k

/-- The running function is at height `k` above the slots of its frame. -/
def VmState.AtHeight (g : VmState) (top : VmFrame) (k : Nat) : Prop :=
  top.bytecode = g.bytecode ∧ top.fp = g.fp ∧ g.ip.code = g.bytecode.code ∧
    g.vmStack.length = g.fp + top.slots + k

/-- One height for each instruction of a compiled lambda. -/
structure StackDiscipline (cctx : CompileContext) (contents : List Cell)
    (bc : Bytecode) (height : Nat → Option Nat) : Prop where
  /-- Each compiled expression raises the height by one. -/
  raises : ∀ e isTail locals p,
    Part Instr.width jumpWidth (exprCode cctx e isTail locals) 0
      (lambdaCode cctx contents) p →
    ∃ k, height p = some k ∧
      height (p + (exprCode cctx e isTail locals).bytes) = some (k + 1)
  /-- Every run is at that height above the slots of its frame. -/
  reached : ∀ ctx stack frames g, VmRun ctx stack frames VmState.Quiet g →
    g.bytecode = bc → ∃ top rest k item, g.vmFrames = top :: rest ∧
      g.AtHeight top k ∧ height g.ip.offset = some k ∧
      (g.ip.offset, item) ∈ (lambdaCode cctx contents).laidOut 0 [] ∧
      ItemStands bc.code g.ip.offset item ∧ ItemWithin k top.slots item
  /-- A run returns with the stack and the frames it began with. -/
  returns : ∀ ctx stack frames g out r,
    VmRun ctx stack frames VmState.Quiet g → g.Quiet out →
    g.step ctx stack.length frames.length out = .value (.done r) →
    r.vmStack = stack ∧ r.vmFrames = frames

/-- `(lambda () (+ "a" 1))`. -/
def failingFn : List Cell :=
  [.expression [], .expression [.symbol (mainSymbol "+"), .string [97], .long 1]]

def failing : Bytecode where
  code := [VmOpcode.const.toByte, 0, 0, VmOpcode.add1.toByte,
    VmOpcode.ret.toByte]
  constants := [.string [97]]
  symbols := []
  numParams := 0
  numLocals := 0

/-- `(lambda () (eval-string "(h)" MAIN 1) 2)`. -/
def catchingFn : List Cell :=
  [.expression [],
    .expression [.symbol (mainSymbol "eval-string"), .string [40, 104, 41],
      .symbol (mainSymbol "MAIN"), .long 1], .long 2]

def catching : Bytecode where
  code := [VmOpcode.loadGlobal.toByte, 0, 0, VmOpcode.const.toByte, 0, 0,
    VmOpcode.loadGlobal.toByte, 1, 0, VmOpcode.const1.toByte,
    VmOpcode.call.toByte, 3, VmOpcode.pop.toByte, VmOpcode.const2.toByte,
    VmOpcode.ret.toByte]
  constants := [.string [40, 104, 41]]
  symbols := [mainSymbol "eval-string", mainSymbol "MAIN"]
  numParams := 0
  numLocals := 0

/-- The machine, with what `eval-string` gives for an expression that raises an
error: the value of its third operand. -/
def catchingMachine : MachineContext :=
  { startupMachine 0 with
    primitive := fun _ args σ => .value (args.getLast?.getD Val.nilCell, σ) }

/-- The frame of `h` that is left when an error in it is caught. -/
def VmState.leftBy (g : VmState) : VmFrame :=
  ⟨failing, failing.entry, g.vmStack.length, 0, .lambda none failingFn⟩

/-- An instruction is left nothing, or the frame of `h`. -/
def VmState.Catches (g : VmState) (out : Outside) : Prop :=
  out.traced = false ∧ (out.leak = [] ∨ out.leak = [g.leftBy])

/-- A state of `f`, begun on empty arrays. -/
def catchingAt (offset : Nat) (vmStack : List Val)
    (leak : List VmFrame) : VmState where
  vmStack := vmStack
  vmFrames := leak ++ [⟨catching, catching.entry, 0, 0, .nil⟩]
  bytecode := catching
  ip := ⟨catching.code, offset⟩
  fp := 0
  currentSelf := .nil
  interp := startup

/-- Before the call of `eval-string`. -/
def catchingOperands : List Val :=
  [Val.ofSymbol startup (mainSymbol "eval-string"),
    Val.temp (.string [40, 104, 41]), Val.ofSymbol startup (mainSymbol "MAIN"),
    Val.temp (.long 1)]

end NewLispNeo
