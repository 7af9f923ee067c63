/-
What each instruction does to a machine whose code holds it at the current
position.  All of these stay in the frame: only the position and the stack
change.
-/
import NewLispNeo.Interpreter
import NewLispNeo.CodeAt

namespace NewLispNeo

open StepRun

namespace Machine

/-- The same frame at another position with another stack. -/
def goTo (m : Machine) (ip : Nat) (vs : List Val) : Machine :=
  { m with ip := ip, vmStack := vs }

section

variable (m : Machine) (ip ip' : Nat) (vs vs' : List Val)

@[simp] theorem goTo_ip : (m.goTo ip vs).ip = ip := rfl

@[simp] theorem goTo_vmStack : (m.goTo ip vs).vmStack = vs := rfl

@[simp] theorem goTo_bytecode : (m.goTo ip vs).bytecode = m.bytecode := rfl

@[simp] theorem goTo_fp : (m.goTo ip vs).fp = m.fp := rfl

@[simp] theorem goTo_interp : (m.goTo ip vs).interp = m.interp := rfl

@[simp] theorem goTo_frames : (m.goTo ip vs).frames = m.frames := rfl

@[simp] theorem goTo_currentSelf :
    (m.goTo ip vs).currentSelf = m.currentSelf := rfl

@[simp] theorem goTo_goTo : (m.goTo ip vs).goTo ip' vs' = m.goTo ip' vs' := rfl

@[simp] theorem goTo_self : m.goTo m.ip m.vmStack = m := rfl

end

variable {m : Machine} {vs : List Val} {v w : Val}

/-- `m` stands before `bytes`. -/
def Before (m : Machine) (bytes : List UInt8) : Prop :=
  CodeAt m.bytecode.code m.ip bytes

theorem Before.append {p q : List UInt8} (h : m.Before (p ++ q))
    (vs : List Val) :
    m.Before p ∧ (m.goTo (m.ip + p.length) vs).Before q := by
  simpa [Before] using h

theorem byte_eq {b : UInt8} {bytes : List UInt8} (h : m.Before (b :: bytes)) :
    m.byte = .value (b, m.goTo (m.ip + 1) m.vmStack) := by
  simp only [Before, CodeAt.cons_iff] at h
  simp [byte, h.1, goTo]

/-- A 16-bit operand in its two bytes. -/
def operand (n : Int) : List UInt8 := [Compiler.lowByte n, Compiler.highByte n]

@[simp] theorem operand_length (n : Int) : (operand n).length = 2 := rfl

theorem lowByte_add_highByte (n : Int) :
    ((Compiler.lowByte n).toNat : Int) + 256 * (Compiler.highByte n).toNat =
      n % 65536 := by
  have h1 : (Compiler.lowByte n).toNat = (n % 256).toNat := by
    simp only [Compiler.lowByte, UInt8.toNat_ofNat']
    omega
  have h2 : (Compiler.highByte n).toNat = (n / 256 % 256).toNat := by
    simp only [Compiler.highByte, UInt8.toNat_ofNat']
    omega
  rw [h1, h2]
  omega

theorem uint16_eq {n : Int} {bytes : List UInt8}
    (h : m.Before (operand n ++ bytes)) :
    m.uint16 = .value ((n % 65536).toNat, m.goTo (m.ip + 2) m.vmStack) := by
  have h1 : m.Before (Compiler.lowByte n :: Compiler.highByte n :: bytes) := h
  have h2 : (m.goTo (m.ip + 1) m.vmStack).Before
      (Compiler.highByte n :: bytes) := by
    simp only [Before, CodeAt.cons_iff] at h1 ⊢
    exact h1.2
  have hn := lowByte_add_highByte n
  have hn' : (Compiler.lowByte n).toNat + 256 * (Compiler.highByte n).toNat =
      (n % 65536).toNat := by omega
  simp only [uint16, byte_eq h1, byte_eq h2, Outcome.value_bind, hn']
  rfl

theorem uint16_nat {i : Nat} {bytes : List UInt8}
    (h : m.Before (operand i ++ bytes)) (hi : i < 65536) :
    m.uint16 = .value (i, m.goTo (m.ip + 2) m.vmStack) := by
  rw [uint16_eq h]
  congr 3
  omega

theorem int16_eq {n : Int} {bytes : List UInt8}
    (h : m.Before (operand n ++ bytes)) (hlo : -32768 ≤ n) (hhi : n < 32768) :
    m.int16 = .value (n, m.goTo (m.ip + 2) m.vmStack) := by
  simp only [int16, uint16_eq h, Outcome.value_bind, Outcome.value.injEq,
    Prod.mk.injEq, and_true]
  split <;> omega

@[simp] theorem push_goTo (ip : Nat) :
    (m.goTo ip vs).push v = m.goTo ip (vs ++ [v]) := rfl

@[simp] theorem pop_goTo (ip : Nat) :
    (m.goTo ip (vs ++ [v])).pop = .value (v, m.goTo ip vs) := by
  simp [pop, goTo]

theorem popCell_goTo (ip : Nat) {c : Cell} (hv : v.deref m.interp = .value c) :
    (m.goTo ip (vs ++ [v])).popCell = .value (c, m.goTo ip vs) := by
  simp [popCell, hv]

theorem storeLocal_goTo (ip slot : Nat) :
    (m.goTo ip (vs ++ [v])).storeLocal slot =
      .value (m.goTo ip (vs.set (m.fp + slot) v)) := by
  simp only [storeLocal, pop_goTo, Outcome.value_bind]
  rfl

variable {ctx : MachineContext}

theorem step_execute {op : VmOpcode} {bytes : List UInt8}
    (h : m.Before (op.toByte :: bytes)) (hret : op ≠ .ret)
    (htail : op ≠ .tailCall) :
    m.step ctx = ((m.goTo (m.ip + 1) m.vmStack).execute ctx op >>=
      fun m' => .value (.goOn m')) := by
  simp only [step, byte_eq h, Outcome.value_bind, VmOpcode.ofByte_toByte]

/-- An instruction of one byte that leads from one stack to another. -/
theorem reaches_of_execute {op : VmOpcode} {m' : Machine}
    (h : m.Before [op.toByte]) (hret : op ≠ .ret) (htail : op ≠ .tailCall)
    (he : (m.goTo (m.ip + 1) m.vmStack).execute ctx op = .value m') :
    Reaches (step ctx) m m' := by
  apply Reaches.single
  rw [step_execute h hret htail, he]
  rfl

/-- As `reaches_of_execute`, for an instruction with a 16-bit operand. -/
theorem reaches_of_execute₁ {op : VmOpcode} {n : Int} {m' : Machine}
    (h : m.Before (op.toByte :: operand n)) (hret : op ≠ .ret)
    (htail : op ≠ .tailCall)
    (he : (m.goTo (m.ip + 1) m.vmStack).Before (operand n ++ []) →
      (m.goTo (m.ip + 1) m.vmStack).execute ctx op = .value m') :
    Reaches (step ctx) m m' := by
  apply Reaches.single
  have h2 : (m.goTo (m.ip + 1) m.vmStack).Before (operand n ++ []) := by
    simp only [Before, CodeAt.cons_iff] at h
    simpa [Before] using h.2
  rw [step_execute h hret htail, he h2]
  rfl

theorem reaches_nil (h : m.Before [VmOpcode.nil.toByte]) :
    Reaches (step ctx) m (m.goTo (m.ip + 1) (m.vmStack ++ [Val.nilCell])) :=
  reaches_of_execute h (by decide) (by decide) rfl

theorem reaches_true (h : m.Before [VmOpcode.true_.toByte]) :
    Reaches (step ctx) m
      (m.goTo (m.ip + 1) (m.vmStack ++ [Val.shared .true_])) :=
  reaches_of_execute h (by decide) (by decide) rfl

theorem reaches_const0 (h : m.Before [VmOpcode.const0.toByte]) :
    Reaches (step ctx) m
      (m.goTo (m.ip + 1) (m.vmStack ++ [Val.temp (.long 0)])) :=
  reaches_of_execute h (by decide) (by decide) rfl

theorem reaches_const1 (h : m.Before [VmOpcode.const1.toByte]) :
    Reaches (step ctx) m
      (m.goTo (m.ip + 1) (m.vmStack ++ [Val.temp (.long 1)])) :=
  reaches_of_execute h (by decide) (by decide) rfl

theorem reaches_const2 (h : m.Before [VmOpcode.const2.toByte]) :
    Reaches (step ctx) m
      (m.goTo (m.ip + 1) (m.vmStack ++ [Val.temp (.long 2)])) :=
  reaches_of_execute h (by decide) (by decide) rfl

theorem reaches_loadSelf (h : m.Before [VmOpcode.loadSelf.toByte]) :
    Reaches (step ctx) m
      (m.goTo (m.ip + 1) (m.vmStack ++ [Val.temp m.currentSelf])) :=
  reaches_of_execute h (by decide) (by decide) rfl

theorem reaches_const {i : Nat} {c : Cell}
    (h : m.Before (VmOpcode.const.toByte :: operand i))
    (hc : m.bytecode.constants[i]? = some c) (hi : i < 65536) :
    Reaches (step ctx) m (m.goTo (m.ip + 3) (m.vmStack ++ [Val.temp c])) := by
  apply reaches_of_execute₁ h (by decide) (by decide)
  intro h2
  unfold execute
  simp [uint16_nat h2 hi, hc]

theorem reaches_loadGlobal {i : Nat} {s : Symbol}
    (h : m.Before (VmOpcode.loadGlobal.toByte :: operand i))
    (hs : m.bytecode.symbols[i]? = some s) (hi : i < 65536)
    (hv : evaluateSymbol m.interp s = .value v) :
    Reaches (step ctx) m (m.goTo (m.ip + 3) (m.vmStack ++ [v])) := by
  apply reaches_of_execute₁ h (by decide) (by decide)
  intro h2
  unfold execute
  simp [symbol, uint16_nat h2 hi, hs, hv]

theorem reaches_pop (h : m.Before [VmOpcode.pop.toByte])
    (hvs : m.vmStack = vs ++ [v]) :
    Reaches (step ctx) m (m.goTo (m.ip + 1) vs) := by
  apply reaches_of_execute h (by decide) (by decide)
  unfold execute
  simp [hvs]

theorem reaches_dup (h : m.Before [VmOpcode.dup.toByte])
    (hvs : m.vmStack = vs ++ [v]) :
    Reaches (step ctx) m (m.goTo (m.ip + 1) (vs ++ [v, v])) := by
  apply reaches_of_execute h (by decide) (by decide)
  unfold execute
  simp [hvs]

/-- The bytes of `emitLoadLocal`. -/
def loadLocalBytes : Nat → List UInt8
  | 0 => [VmOpcode.loadLocal0.toByte]
  | 1 => [VmOpcode.loadLocal1.toByte]
  | 2 => [VmOpcode.loadLocal2.toByte]
  | 3 => [VmOpcode.loadLocal3.toByte]
  | slot => VmOpcode.loadLocal.toByte :: operand slot

/-- The bytes of `emitStoreLocal`. -/
def storeLocalBytes : Nat → List UInt8
  | 0 => [VmOpcode.storeLocal0.toByte]
  | 1 => [VmOpcode.storeLocal1.toByte]
  | 2 => [VmOpcode.storeLocal2.toByte]
  | 3 => [VmOpcode.storeLocal3.toByte]
  | slot => VmOpcode.storeLocal.toByte :: operand slot

theorem reaches_loadLocal {slot : Nat} (h : m.Before (loadLocalBytes slot))
    (hslot : slot < 65536) (hv : m.vmStack[m.fp + slot]? = some v) :
    Reaches (step ctx) m
      (m.goTo (m.ip + (loadLocalBytes slot).length) (m.vmStack ++ [v])) := by
  match slot with
  | 0 | 1 | 2 | 3 =>
      apply reaches_of_execute h (by decide) (by decide)
      unfold execute
      simp_all [loadLocal, loadLocalBytes]
  | slot + 4 =>
      apply reaches_of_execute₁ h (by decide) (by decide)
      intro h2
      unfold execute
      simp [uint16_nat h2 hslot, loadLocal, hv, loadLocalBytes]

theorem reaches_storeLocal {slot : Nat} (h : m.Before (storeLocalBytes slot))
    (hslot : slot < 65536) (hvs : m.vmStack = vs ++ [v]) :
    Reaches (step ctx) m
      (m.goTo (m.ip + (storeLocalBytes slot).length)
        (vs.set (m.fp + slot) v)) := by
  match slot with
  | 0 | 1 | 2 | 3 =>
      apply reaches_of_execute h (by decide) (by decide)
      unfold execute
      simp only [hvs, storeLocal_goTo]
      rfl
  | slot + 4 =>
      apply reaches_of_execute₁ h (by decide) (by decide)
      rw [hvs]
      intro h2
      unfold execute
      simp only [uint16_nat h2 hslot, Outcome.value_bind, goTo_goTo,
        goTo_vmStack, storeLocal_goTo]
      rfl

theorem reaches_storeGlobal {i : Nat} {s : Symbol} {c : Cell}
    (h : m.Before (VmOpcode.storeGlobal.toByte :: operand i))
    (hs : m.bytecode.symbols[i]? = some s) (hi : i < 65536)
    (hvs : m.vmStack = vs ++ [v]) (hv : v.deref m.interp = .value c) :
    Reaches (step ctx) m
      { m.goTo (m.ip + 3) vs with interp := m.interp.assign s c } := by
  apply reaches_of_execute₁ h (by decide) (by decide)
  rw [hvs]
  intro h2
  unfold execute
  simp only [storeGlobal, symbol, uint16_nat h2 hi,
    Outcome.value_bind, goTo_bytecode, hs, goTo_goTo, goTo_vmStack, goTo_ip,
    popCell_goTo _ hv, goTo_interp, Nat.add_assoc]

/-- A jump opcode with its offset. -/
def jumpBytes (op : VmOpcode) (offset : Int) : List UInt8 :=
  op.toByte :: operand offset

@[simp] theorem jumpBytes_length (op : VmOpcode) (offset : Int) :
    (jumpBytes op offset).length = 3 := rfl

/-- An offset that sixteen bits hold and that leads to a position. -/
structure Near (ip : Nat) (offset : Int) : Prop where
  lo : -32768 ≤ offset
  hi : offset < 32768
  pos : 0 ≤ (ip : Int) + offset

theorem jump_goTo {ip : Nat} {offset : Int} (hn : Near ip offset) :
    (m.goTo ip vs).jump offset =
      .value (m.goTo ((ip : Int) + offset).toNat vs) := by
  simp [jump, hn.pos, goTo]

theorem reaches_jump {offset : Int} (h : m.Before (jumpBytes .jump offset))
    (hn : Near (m.ip + 3) offset) :
    Reaches (step ctx) m
      (m.goTo (((m.ip + 3 : Nat) : Int) + offset).toNat m.vmStack) := by
  apply reaches_of_execute₁ h (by decide) (by decide)
  intro h2
  unfold execute
  simp only [int16_eq h2 hn.lo hn.hi, Outcome.value_bind, goTo_goTo,
    goTo_ip, goTo_vmStack, Nat.add_assoc]
  exact jump_goTo hn

theorem jumpIf_goTo {b : Bool} {ip : Nat} {offset : Int} {c : Cell}
    (h : (m.goTo ip (vs ++ [v])).Before (operand offset ++ []))
    (hv : v.deref m.interp = .value c) (hn : Near (ip + 2) offset) :
    (m.goTo ip (vs ++ [v])).jumpIf b =
      .value (if isFalsy c = b
        then m.goTo (((ip + 2 : Nat) : Int) + offset).toNat vs
        else m.goTo (ip + 2) vs) := by
  simp only [jumpIf, int16_eq h hn.lo hn.hi, Outcome.value_bind, goTo_goTo,
    goTo_ip, goTo_vmStack, popCell_goTo _ hv, jump_goTo hn]
  split <;> rfl

/-- `OP_JUMP_IF_NIL`, both ways. -/
theorem reaches_jumpIfNil {offset : Int} {c : Cell}
    (h : m.Before (jumpBytes .jumpIfNil offset))
    (hvs : m.vmStack = vs ++ [v]) (hv : v.deref m.interp = .value c)
    (hn : Near (m.ip + 3) offset) :
    Reaches (step ctx) m
      (if isFalsy c = true
        then m.goTo (((m.ip + 3 : Nat) : Int) + offset).toNat vs
        else m.goTo (m.ip + 3) vs) := by
  apply reaches_of_execute₁ h (by decide) (by decide)
  rw [hvs]
  intro h2
  exact jumpIf_goTo h2 hv hn

/-- `OP_JUMP_IF_NOT_NIL`, both ways. -/
theorem reaches_jumpIfNotNil {offset : Int} {c : Cell}
    (h : m.Before (jumpBytes .jumpIfNotNil offset))
    (hvs : m.vmStack = vs ++ [v]) (hv : v.deref m.interp = .value c)
    (hn : Near (m.ip + 3) offset) :
    Reaches (step ctx) m
      (if isFalsy c = false
        then m.goTo (((m.ip + 3 : Nat) : Int) + offset).toNat vs
        else m.goTo (m.ip + 3) vs) := by
  apply reaches_of_execute₁ h (by decide) (by decide)
  rw [hvs]
  intro h2
  exact jumpIf_goTo h2 hv hn

end Machine

end NewLispNeo
