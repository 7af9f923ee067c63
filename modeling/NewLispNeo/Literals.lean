/-
The literals of a lambda that become constants, in the order they are compiled, and the
`OP_CONST` instructions of its code.
-/
import NewLispNeo.CodeShape
import NewLispNeo.ExprCode
import NewLispNeo.Interning

namespace NewLispNeo

open Compiler

mutual

/-- The cells of an expression for which an `OP_CONST` is emitted, in order; of what the
compiler rejects, any. -/
def literals : Cell → List Cell
  | .long val => if val = 0 ∨ val = 1 ∨ val = 2 then [] else [.long val]
  | .float val => [.float val]
  | .string val => [.string val]
  | .quote val => [val]
  | .expression (.symbol hsym :: args) =>
      if hsym.name = "if" then ifLiterals args
      else if hsym.name = "cond" then clauseLiterals args
      else if hsym.name = "let" then letLiterals args
      else if hsym.name = "local" then localLiterals args
      else if hsym.name = "dotimes" then dotimesLiterals args
      else if hsym.name = "setq" ∨ hsym.name = "set" then setLiterals args
      else if hsym.name = "inc" ∨ hsym.name = "dec" then incLiterals args
      else bodyLiterals args
  | .expression (head :: args) => literals head ++ bodyLiterals args
  | _ => []

def bodyLiterals : List Cell → List Cell
  | [] => []
  | e :: es => literals e ++ bodyLiterals es

/-- What comes after the third operand of an `if` is not compiled. -/
def ifLiterals : List Cell → List Cell
  | [cond, thenExpr] => literals cond ++ literals thenExpr
  | cond :: thenExpr :: elseExpr :: _ =>
      literals cond ++ literals thenExpr ++ literals elseExpr
  | _ => []

def clauseLiterals : List Cell → List Cell
  | .expression clause :: clauses => bodyLiterals clause ++ clauseLiterals clauses
  | _ => []

def bindingLiterals : List Cell → List Cell
  | .expression (.symbol _ :: initVal :: _) :: bindings =>
      literals initVal ++ bindingLiterals bindings
  | .expression _ :: bindings => bindingLiterals bindings
  | .symbol _ :: initVal :: bindings => literals initVal ++ bindingLiterals bindings
  | _ => []

def letLiterals : List Cell → List Cell
  | .expression bindings :: body => bindingLiterals bindings ++ bodyLiterals body
  | _ => []

def localLiterals : List Cell → List Cell
  | _ :: body => bodyLiterals body
  | _ => []

def dotimesLiterals : List Cell → List Cell
  | .expression (_ :: countExpr :: _) :: body => literals countExpr ++ bodyLiterals body
  | _ => []

def setLiterals : List Cell → List Cell
  | _ :: val :: pair => literals val ++ setLiterals pair
  | _ => []

def incLiterals : List Cell → List Cell
  | _ :: delta :: _ => literals delta
  | _ => []

end

/-- The literals of a lambda. -/
def lambdaLiterals (lambda : List Cell) : List Cell := bodyLiterals lambda.tail

/-- The instructions of code, each an opcode with the bytes of its operand. -/
def disassemble : Nat → List UInt8 → List (VmOpcode × List UInt8)
  | fuel + 1, b :: bytes =>
      match VmOpcode.ofByte b with
      | none => []
      | some op =>
          (op, bytes.take op.operandWidth) :: disassemble fuel (bytes.drop op.operandWidth)
  | _, _ => []

/-- `(uint16_t)(ip[0] | (ip[1] << 8))`. -/
def operandValue : List UInt8 → Nat
  | [lo, hi] => lo.toNat + 256 * hi.toNat
  | _ => 0

/-- The indices of the `OP_CONST` instructions among some instructions. -/
def constOperands (instrs : List (VmOpcode × List UInt8)) : List Nat :=
  (instrs.filter fun instr => instr.1 = .const).map fun instr => operandValue instr.2

/-- The indices of the `OP_CONST` instructions of code. -/
def constantIndices (code : List UInt8) : List Nat :=
  constOperands (disassemble code.length code)

/-- What `addConstant` takes for the same constant. -/
def comparesEqual (rt : Runtime) (k val : Cell) : Bool :=
  match compareCells rt k val with
  | .value result => result = 0
  | _ => false

/-- The bytes of some instructions. -/
def assemble (instrs : List (VmOpcode × List UInt8)) : List UInt8 :=
  instrs.flatMap fun instr => instr.1.toByte :: instr.2

/-- Each instruction has the operand its opcode takes. -/
def Sized (instrs : List (VmOpcode × List UInt8)) : Prop :=
  ∀ instr ∈ instrs, instr.2.length = instr.1.operandWidth

section Instructions

variable {instrs more : List (VmOpcode × List UInt8)}

@[simp] theorem assemble_append : assemble (instrs ++ more) = assemble instrs ++ assemble more :=
  List.flatMap_append

@[simp] theorem assemble_cons {op : VmOpcode} {operand : List UInt8} :
    assemble ((op, operand) :: instrs) = op.toByte :: operand ++ assemble instrs := by
  simp [assemble]

@[simp] theorem assemble_nil : assemble [] = [] := rfl

@[simp] theorem constOperands_append :
    constOperands (instrs ++ more) = constOperands instrs ++ constOperands more := by
  simp [constOperands]

theorem sized_append : Sized (instrs ++ more) ↔ Sized instrs ∧ Sized more :=
  List.forall_mem_append

theorem sized_cons {op : VmOpcode} {operand : List UInt8} :
    Sized ((op, operand) :: instrs) ↔ operand.length = op.operandWidth ∧ Sized instrs :=
  List.forall_mem_cons

/-- The instructions can be read off the code. -/
theorem disassemble_assemble (h : Sized instrs) {fuel : Nat}
    (hfuel : (assemble instrs).length ≤ fuel) :
    disassemble fuel (assemble instrs) = instrs := by
  induction instrs generalizing fuel with
  | nil => cases fuel <;> rfl
  | cons instr instrs ih =>
      obtain ⟨op, operand⟩ := instr
      obtain ⟨hwidth, hrest⟩ := sized_cons.mp h
      rw [assemble_cons, List.cons_append] at hfuel ⊢
      cases fuel with
      | zero => simp at hfuel
      | succ fuel =>
          simp only [List.length_cons, List.length_append] at hfuel
          simp only [disassemble, VmOpcode.ofByte_toByte]
          rw [List.take_left' hwidth, List.drop_left' hwidth, ih hrest (by omega)]

end Instructions

end NewLispNeo
