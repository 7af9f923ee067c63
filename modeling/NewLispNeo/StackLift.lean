/-
A run of a function on a stack of its own is its run above any other stack and
any other callers: what lies below its frame is neither read nor changed.
-/
import NewLispNeo.StackHeights

namespace NewLispNeo

open StepRun

/-- The frame above `n` further entries. -/
def Frame.lift (n : Nat) (f : Frame) : Frame := { f with fp := n + f.fp }

namespace Machine

/-- The machine above the stack `base` and the callers `callers`. -/
def lift (base : List Val) (callers : List Frame) (m : Machine) : Machine :=
  { m with
    vmStack := base ++ m.vmStack
    fp := base.length + m.fp
    frames := m.frames.map (Frame.lift base.length) ++ callers }

variable {base : List Val} {callers : List Frame} {m m' : Machine}
  {ctx : MachineContext}

/-- The outcome, lifted. -/
abbrev Lifted (base : List Val) (callers : List Frame)
    (x : Outcome Error Machine) : Outcome Error Machine :=
  x >>= fun m => .value (m.lift base callers)

theorem lift_push (v : Val) :
    (m.lift base callers).push v = (m.push v).lift base callers := by
  simp [lift, push]

theorem lift_result (σ : Interp) (v : Val) :
    { m.lift base callers with interp := σ }.push v =
      ({ m with interp := σ }.push v).lift base callers :=
  lift_push (m := { m with interp := σ }) v

theorem lift_byte : (m.lift base callers).byte =
    m.byte >>= fun r => .value (r.1, r.2.lift base callers) := by
  have hcode : (m.lift base callers).bytecode.code[(m.lift base callers).ip]? =
      m.bytecode.code[m.ip]? := rfl
  unfold byte
  rw [hcode]
  cases m.bytecode.code[m.ip]? <;> rfl

theorem lift_uint16 : (m.lift base callers).uint16 =
    m.uint16 >>= fun r => .value (r.1, r.2.lift base callers) := by
  simp only [uint16, lift_byte, Outcome.bind_assoc, Outcome.value_bind]

theorem lift_int16 : (m.lift base callers).int16 =
    m.int16 >>= fun r => .value (r.1, r.2.lift base callers) := by
  simp only [int16, lift_uint16, Outcome.bind_assoc, Outcome.value_bind]

theorem lift_symbol : (m.lift base callers).symbol =
    m.symbol >>= fun r => .value (r.1, r.2.lift base callers) := by
  simp only [symbol, lift_uint16, Outcome.bind_assoc, Outcome.value_bind]
  refine Outcome.bind_congr ?_
  rintro ⟨i, m₁⟩ -
  have hsymbols : (m₁.lift base callers).bytecode.symbols[i]? =
      m₁.bytecode.symbols[i]? := rfl
  simp only [hsymbols]
  cases m₁.bytecode.symbols[i]? <;> rfl

theorem lift_jump (offset : Int) :
    (m.lift base callers).jump offset =
      Lifted base callers (m.jump offset) := by
  unfold jump
  change (if 0 ≤ (m.ip : Int) + offset then _ else _) = _
  split <;> rfl

theorem lift_pop (h : 0 < m.vmStack.length) :
    (m.lift base callers).pop =
      m.pop >>= fun r => .value (r.1, r.2.lift base callers) := by
  have hne : m.vmStack ≠ [] := List.ne_nil_of_length_pos h
  have hlast : (m.lift base callers).vmStack.getLast? =
      m.vmStack.getLast? := by
    simp [lift, List.getLast?_append, List.getLast?_eq_some_getLast hne]
  have hinit : (m.lift base callers).vmStack.dropLast =
      base ++ m.vmStack.dropLast := List.dropLast_append_of_ne_nil hne
  unfold pop
  rw [hlast, hinit]
  cases m.vmStack.getLast? <;> rfl

theorem lift_popCell (h : 0 < m.vmStack.length) :
    (m.lift base callers).popCell =
      m.popCell >>= fun r => .value (r.1, r.2.lift base callers) := by
  simp only [popCell, lift_pop h, Outcome.bind_assoc, Outcome.value_bind]
  rfl

theorem lift_loadLocal (slot : Nat) :
    (m.lift base callers).loadLocal slot =
      Lifted base callers (m.loadLocal slot) := by
  have hget : (m.lift base callers).vmStack[(m.lift base callers).fp + slot]? =
      m.vmStack[m.fp + slot]? := by
    simp only [lift, Nat.add_assoc]
    rw [List.getElem?_append_right (Nat.le_add_right _ _),
      Nat.add_sub_cancel_left]
  unfold loadLocal
  rw [hget]
  cases m.vmStack[m.fp + slot]? with
  | none => rfl
  | some v => exact congrArg Outcome.value (lift_push v)

theorem lift_storeLocal (slot : Nat) (h : 0 < m.vmStack.length) :
    (m.lift base callers).storeLocal slot =
      Lifted base callers (m.storeLocal slot) := by
  simp only [storeLocal, lift_pop h, Outcome.bind_assoc, Outcome.value_bind,
    Lifted]
  refine Outcome.bind_congr ?_
  rintro ⟨v, m₁⟩ -
  simp only [lift, Nat.add_assoc, Outcome.value.injEq, mk.injEq, and_true]
  rw [List.set_append_right _ _ (Nat.le_add_right _ _),
    Nat.add_sub_cancel_left]

theorem lift_storeGlobal (h : 0 < m.vmStack.length) :
    (m.lift base callers).storeGlobal =
      Lifted base callers m.storeGlobal := by
  simp only [storeGlobal, lift_symbol, Outcome.bind_assoc, Outcome.value_bind,
    Lifted]
  refine Outcome.bind_congr ?_
  rintro ⟨s, m₁⟩ hs
  have hheight := (Moves.symbol hs).height
  simp only [lift_popCell (show 0 < m₁.vmStack.length by omega),
    Outcome.bind_assoc, Outcome.value_bind]
  rfl

theorem lift_binary {op : ArithOp} (h : 2 ≤ m.vmStack.length) :
    (m.lift base callers).binary ctx op =
      Lifted base callers (m.binary ctx op) := by
  simp only [binary, lift_pop (show 0 < m.vmStack.length by omega),
    Outcome.bind_assoc, Outcome.value_bind, Lifted]
  refine Outcome.bind_congr ?_
  rintro ⟨v, m₁⟩ hv
  have hheight := (Moves.pop hv).height
  simp only [lift_popCell (show 0 < m₁.vmStack.length by omega),
    Outcome.bind_assoc, Outcome.value_bind]
  refine Outcome.bind_congr ?_
  rintro ⟨c, m₂⟩ -
  refine Outcome.bind_congr fun b _ => Outcome.bind_congr fun r _ => ?_
  exact congrArg Outcome.value (lift_result _ _)

theorem lift_binaryImmediate {op : ArithOp} {n : Word}
    (h : 0 < m.vmStack.length) :
    (m.lift base callers).binaryImmediate ctx op n =
      Lifted base callers (m.binaryImmediate ctx op n) := by
  simp only [binaryImmediate, lift_popCell h, Outcome.bind_assoc,
    Outcome.value_bind, Lifted]
  refine Outcome.bind_congr fun r _ => Outcome.bind_congr fun c _ => ?_
  exact congrArg Outcome.value (lift_result _ _)

theorem lift_negate (h : 0 < m.vmStack.length) :
    (m.lift base callers).negate ctx =
      Lifted base callers (m.negate ctx) := by
  simp only [negate, lift_popCell h, Outcome.bind_assoc, Outcome.value_bind,
    Lifted]
  refine Outcome.bind_congr ?_
  rintro ⟨c, m₁⟩ -
  cases c with
  | long x => exact congrArg Outcome.value (lift_push _)
  | _ =>
      simp only [Outcome.bind_assoc, Outcome.value_bind]
      refine Outcome.bind_congr fun r _ => ?_
      exact congrArg Outcome.value (lift_result _ _)

theorem lift_comparison {test : Int → Bool} (h : 2 ≤ m.vmStack.length) :
    (m.lift base callers).comparison ctx test =
      Lifted base callers (m.comparison ctx test) := by
  simp only [comparison, lift_pop (show 0 < m.vmStack.length by omega),
    Outcome.bind_assoc, Outcome.value_bind, Lifted]
  refine Outcome.bind_congr ?_
  rintro ⟨v, m₁⟩ hv
  have hheight := (Moves.pop hv).height
  simp only [lift_popCell (show 0 < m₁.vmStack.length by omega),
    Outcome.bind_assoc, Outcome.value_bind]
  refine Outcome.bind_congr ?_
  rintro ⟨c, m₂⟩ -
  refine Outcome.bind_congr fun b _ => Outcome.bind_congr fun r _ => ?_
  exact congrArg Outcome.value (lift_push _)

theorem lift_jumpIf {onFalsy : Bool} (h : 0 < m.vmStack.length) :
    (m.lift base callers).jumpIf onFalsy =
      Lifted base callers (m.jumpIf onFalsy) := by
  simp only [jumpIf, lift_int16, Outcome.bind_assoc, Outcome.value_bind, Lifted]
  refine Outcome.bind_congr ?_
  rintro ⟨offset, m₁⟩ ho
  have hheight := (Moves.int16 ho).height
  simp only [lift_popCell (show 0 < m₁.vmStack.length by omega),
    Outcome.bind_assoc, Outcome.value_bind]
  refine Outcome.bind_congr ?_
  rintro ⟨c, m₂⟩ -
  dsimp only
  split
  · exact lift_jump offset
  · rfl

/-- The byte at the instruction pointer as an argument count. -/
def argc (m : Machine) : Nat :=
  (m.bytecode.code[m.ip]?.map UInt8.toNat).getD 0

theorem argc_eq {b : UInt8} (h : m.bytecode.code[m.ip]? = some b) :
    m.argc = b.toNat := by simp [argc, h]

theorem lift_topOf {n : Nat} (h : n ≤ m.vmStack.length) :
    (m.lift base callers).topOf n =
      m.topOf n >>= fun r => .value (base ++ r.1, r.2) := by
  have hlen : (m.lift base callers).vmStack.length - n =
      base.length + (m.vmStack.length - n) := by
    simp only [lift, List.length_append]
    omega
  have hle : n ≤ (m.lift base callers).vmStack.length := by
    simp only [lift, List.length_append]
    omega
  unfold topOf
  rw [if_pos h, if_pos hle, hlen]
  simp only [lift, List.splitAt_eq, List.take_length_add_append,
    List.drop_length_add_append, Outcome.value_bind]

theorem topOf_of_lift {n : Nat} {r : List Val × List Val}
    (h : n ≤ m.vmStack.length)
    (htop : (m.lift base callers).topOf n = .value r) :
    ∃ below args, m.topOf n = .value (below, args) ∧
      r = (base ++ below, args) := by
  rw [lift_topOf h] at htop
  obtain ⟨⟨below, args⟩, hargs, hr⟩ := Outcome.bind_eq_value_iff.mp htop
  exact ⟨below, args, hargs, (Outcome.value.inj hr).symm⟩

/-- The argument count and the arguments of a call. -/
theorem lift_args {β : Type}
    (h : ∀ b, m.bytecode.code[m.ip]? = some b → b.toNat ≤ m.vmStack.length)
    (f : Machine → List Val × List Val → Outcome Error β) :
    ((m.lift base callers).byte >>= fun r => r.2.topOf r.1.toNat >>= f r.2) =
      m.byte >>= fun r => r.2.topOf r.1.toNat >>= fun args =>
        f (r.2.lift base callers) (base ++ args.1, args.2) := by
  simp only [lift_byte, Outcome.bind_assoc, Outcome.value_bind]
  refine Outcome.bind_congr ?_
  rintro ⟨b, m₁⟩ hb
  have hheight := (Moves.byte hb).2.height
  have hargs := h b (Moves.byte hb).1
  simp only [lift_topOf (show b.toNat ≤ m₁.vmStack.length by omega),
    Outcome.bind_assoc, Outcome.value_bind]

theorem lift_enter (below args : List Val) (bc : Bytecode) (self : Cell) :
    (m.lift base callers).enter (base ++ below) args bc self =
      Lifted base callers (m.enter below args bc self) := by
  unfold enter
  split
  · rfl
  · simp [lift, Frame.lift]

theorem lift_reenter (args : List Val) (bc : Bytecode) (self : Cell) :
    (m.lift base callers).reenter args bc self =
      (m.reenter args bc self).lift base callers := by
  simp only [lift, reenter, List.take_length_add_append, List.append_assoc]

theorem lift_callSelf
    (h : ∀ b, m.bytecode.code[m.ip]? = some b → b.toNat ≤ m.vmStack.length) :
    (m.lift base callers).callSelf = Lifted base callers m.callSelf := by
  refine (lift_args h fun m args =>
    m.enter args.1 args.2 m.bytecode m.currentSelf).trans ?_
  simp only [callSelf, Outcome.bind_assoc, Lifted]
  exact Outcome.bind_congr fun _ _ => Outcome.bind_congr fun _ _ =>
    lift_enter _ _ _ _

theorem lift_tailCallSelf
    (h : ∀ b, m.bytecode.code[m.ip]? = some b → b.toNat ≤ m.vmStack.length) :
    (m.lift base callers).tailCallSelf =
      Lifted base callers m.tailCallSelf := by
  refine (lift_args h fun m args =>
    .value (m.reenter args.2 m.bytecode m.currentSelf)).trans ?_
  simp only [tailCallSelf, Outcome.bind_assoc, Lifted]
  exact Outcome.bind_congr fun _ _ => Outcome.bind_congr fun _ _ =>
    congrArg _ (lift_reenter _ _ _)

end Machine

/-- What a call does: it has a compiled function to enter, or the result of
another one.  The operands and the function are off the stack. -/
inductive Callee where
  | compiled (m : Machine) (args : List Val) (bc : Bytecode) (self : Cell)
  | result (m : Machine) (v : Val)

def Callee.lift (base : List Val) (callers : List Frame) : Callee → Callee
  | .compiled m args bc self => .compiled (m.lift base callers) args bc self
  | .result m v => .result (m.lift base callers) v

def Callee.machine : Callee → Machine
  | .compiled m _ _ _ => m
  | .result m _ => m

/-- Enter the function on a new frame, or push the result. -/
def Callee.call : Callee → Outcome Error Machine
  | .compiled m args bc self => m.enter m.vmStack args bc self
  | .result m v => .value (m.push v)

/-- Enter the function in place, or return the result. -/
def Callee.tailCall : Callee → Outcome Error Machine.Next
  | .compiled m args bc self => .value (.goOn (m.reenter args bc self))
  | .result m v => m.return_ v

namespace Machine

variable {base : List Val} {callers : List Frame} {m m' : Machine}
  {ctx : MachineContext}

/-- The part that `OP_CALL` and `OP_TAIL_CALL` share. -/
def callee (ctx : MachineContext) (m : Machine) : Outcome Error Callee := do
  let (argc, m) ← m.byte
  let (below, args) ← m.topOf argc.toNat
  let (target, m) ← { m with vmStack := below }.pop
  let targetFn ← target.deref m.interp
  let bc ←
    match targetFn with
    | .lambda selfSymbol contents => bytecodeOf ctx selfSymbol contents
    | _ => .value none
  match bc with
  | some bc => .value (.compiled m args bc targetFn)
  | none => do
      let (res, σ) ← fallback ctx targetFn args m.interp
      .value (.result { m with interp := σ } res)

theorem call_eq : m.call ctx = m.callee ctx >>= Callee.call := by
  simp only [call, callee, Outcome.bind_assoc]
  refine Outcome.bind_congr fun _ _ => Outcome.bind_congr fun _ _ =>
    Outcome.bind_congr fun _ _ => Outcome.bind_congr fun target _ => ?_
  cases target with
  | lambda selfSymbol contents =>
      simp only [Outcome.bind_assoc]
      refine Outcome.bind_congr fun bc _ => ?_
      cases bc with
      | some bc => rfl
      | none =>
          simp only [Outcome.bind_assoc]
          rfl
  | _ =>
      simp only [Outcome.value_bind, Outcome.bind_assoc]
      rfl

theorem tailCall_eq : m.tailCall ctx = m.callee ctx >>= Callee.tailCall := by
  simp only [tailCall, callee, Outcome.bind_assoc]
  refine Outcome.bind_congr fun _ _ => Outcome.bind_congr fun _ _ =>
    Outcome.bind_congr fun _ _ => Outcome.bind_congr fun target _ => ?_
  cases target with
  | lambda selfSymbol contents =>
      simp only [Outcome.bind_assoc]
      refine Outcome.bind_congr fun bc _ => ?_
      cases bc with
      | some bc => rfl
      | none =>
          simp only [Outcome.bind_assoc]
          rfl
  | _ =>
      simp only [Outcome.value_bind, Outcome.bind_assoc]
      rfl

/-- The operands and the function of a call are off the stack. -/
theorem callee_stays {c : Callee} (h : m.callee ctx = .value c) :
    Stays m c.machine (-(m.argc + 1)) := by
  simp only [callee, Outcome.bind_eq_value_iff, Prod.exists] at h
  obtain ⟨b, m₁, hb, below, args, htop, w, m₂, hpop, target, -, h⟩ := h
  have hmoves := target_stays hb htop hpop
  rw [argc_eq (Moves.byte hb).1]
  split at h
  all_goals
    obtain ⟨bc, -, h⟩ := Outcome.bind_eq_value_iff.mp h
    cases bc with
    | some bc =>
        obtain rfl := Outcome.value.inj h
        exact hmoves.toStays
    | none =>
        simp only [Outcome.bind_eq_value_iff, Prod.exists,
          Outcome.value.injEq] at h
        obtain ⟨res, σ, -, rfl⟩ := h
        exact ⟨hmoves.bytecode, hmoves.currentSelf, hmoves.fp, hmoves.frames,
          hmoves.height⟩

theorem lift_callee
    (h : ∀ b, m.bytecode.code[m.ip]? = some b →
      b.toNat + 1 ≤ m.vmStack.length) :
    (m.lift base callers).callee ctx =
      m.callee ctx >>= fun c => .value (c.lift base callers) := by
  simp only [callee, lift_byte, Outcome.bind_assoc, Outcome.value_bind]
  refine Outcome.bind_congr ?_
  rintro ⟨b, m₁⟩ hb
  have hheight := (Moves.byte hb).2.height
  have hargs := h b (Moves.byte hb).1
  simp only [lift_topOf (show b.toNat ≤ m₁.vmStack.length by omega),
    Outcome.bind_assoc, Outcome.value_bind]
  refine Outcome.bind_congr ?_
  rintro ⟨below, args⟩ htop
  have hlen := (topOf_eq htop).1
  have hpop : ({ m₁ with vmStack := below }.lift base callers).pop = _ :=
    lift_pop (show 0 < below.length by omega)
  change ({ m₁ with vmStack := below }.lift base callers).pop >>= _ = _
  rw [hpop, Outcome.bind_assoc]
  refine Outcome.bind_congr ?_
  rintro ⟨v, m₂⟩ -
  rw [Outcome.value_bind]
  refine Outcome.bind_congr fun target _ => ?_
  cases target with
  | lambda selfSymbol contents =>
      simp only [Outcome.bind_assoc]
      refine Outcome.bind_congr fun bc _ => ?_
      cases bc with
      | some bc => rfl
      | none =>
          simp only [Outcome.bind_assoc]
          rfl
  | _ =>
      simp only [Outcome.value_bind, Outcome.bind_assoc]
      rfl

end Machine

/-- What an instruction leads to: the next state, or a value its function
returns. -/
inductive Way where
  | goOn (m : Machine)
  | ret (m : Machine) (v : Val)

def Way.close : Way → Outcome Error Machine.Next
  | .goOn m => .value (.goOn m)
  | .ret m v => m.return_ v

def Way.lift (base : List Val) (callers : List Frame) : Way → Way
  | .goOn m => .goOn (m.lift base callers)
  | .ret m v => .ret (m.lift base callers) v

def Callee.way : Callee → Way
  | .compiled m args bc self => .goOn (m.reenter args bc self)
  | .result m v => .ret m v

theorem Callee.close_way (c : Callee) : c.way.close = c.tailCall := by
  cases c <;> rfl

theorem Callee.lift_way (base : List Val) (callers : List Frame) (c : Callee) :
    (c.lift base callers).way = c.way.lift base callers := by
  cases c with
  | compiled m args bc self =>
      exact congrArg Way.goOn (Machine.lift_reenter args bc self)
  | result m v => rfl

namespace Machine

/-- One instruction, up to the return. -/
def way (ctx : MachineContext) (m : Machine) : Outcome Error Way := do
  let (b, m) ← m.byte
  match VmOpcode.ofByte b with
  | none => .undefined
  | some .ret => do
      let (v, m) ← m.pop
      .value (.ret m v)
  | some .tailCall => do
      let c ← m.callee ctx
      .value c.way
  | some op => do
      let m ← m.execute ctx op
      .value (.goOn m)

variable {base : List Val} {callers : List Frame} {m m' : Machine}
  {ctx : MachineContext}

theorem step_eq_way : m.step ctx = m.way ctx >>= Way.close := by
  simp only [step, way, Outcome.bind_assoc]
  refine Outcome.bind_congr fun r _ => ?_
  cases VmOpcode.ofByte r.1 with
  | none => rfl
  | some op =>
      cases op with
      | tailCall =>
          simp only [Outcome.bind_assoc, Outcome.value_bind, tailCall_eq]
          exact Outcome.bind_congr fun c _ => (Callee.close_way c).symm
      | _ =>
          simp only [Outcome.bind_assoc, Outcome.value_bind]
          rfl

/-- The operands of an instruction, its opcode read already, are on the
stack. -/
def Fed (op : VmOpcode) (m : Machine) : Prop :=
  (⟨op, m.argc⟩ : Instr).pops ≤ m.vmStack.length ∧
    (op.isJump = true → op.jumpPops ≤ m.vmStack.length)

theorem lift_execute {op : VmOpcode} (h : Fed op m) :
    (m.lift base callers).execute ctx op =
      Lifted base callers (m.execute ctx op) := by
  obtain ⟨hpops, hjump⟩ := h
  cases op with
  | nop => rfl
  | nil | true_ | loadSelf | const0 | const1 | const2 =>
      exact congrArg Outcome.value (lift_push _)
  | const =>
      simp only [execute, lift_uint16, Outcome.bind_assoc, Outcome.value_bind,
        Lifted]
      refine Outcome.bind_congr ?_
      rintro ⟨i, m₁⟩ -
      have hconstants : (m₁.lift base callers).bytecode.constants[i]? =
          m₁.bytecode.constants[i]? := rfl
      simp only [hconstants]
      cases m₁.bytecode.constants[i]? with
      | none => rfl
      | some c => exact congrArg Outcome.value (lift_push _)
  | pop =>
      simp only [execute, lift_pop hpops, Outcome.bind_assoc,
        Outcome.value_bind, Lifted]
  | dup =>
      have hne : m.vmStack ≠ [] := List.ne_nil_of_length_pos hpops
      have hlast : (m.lift base callers).vmStack.getLast? =
          m.vmStack.getLast? := by
        simp [lift, List.getLast?_append, List.getLast?_eq_some_getLast hne]
      simp only [execute, hlast]
      cases m.vmStack.getLast? with
      | none => rfl
      | some v => exact congrArg Outcome.value (lift_push _)
  | loadLocal =>
      simp only [execute, lift_uint16, Outcome.bind_assoc, Outcome.value_bind,
        Lifted]
      exact Outcome.bind_congr fun r _ => lift_loadLocal r.1
  | storeLocal =>
      simp only [execute, lift_uint16, Outcome.bind_assoc, Outcome.value_bind,
        Lifted]
      refine Outcome.bind_congr ?_
      rintro ⟨slot, m₁⟩ hslot
      have hheight := (Moves.uint16 hslot).height
      have hpops : 1 ≤ m.vmStack.length := hpops
      exact lift_storeLocal slot (show 0 < m₁.vmStack.length by omega)
  | loadGlobal =>
      simp only [execute, lift_symbol, Outcome.bind_assoc, Outcome.value_bind,
        Lifted]
      refine Outcome.bind_congr fun r _ => Outcome.bind_congr fun v _ => ?_
      exact congrArg Outcome.value (lift_push _)
  | storeGlobal => exact lift_storeGlobal hpops
  | jump =>
      simp only [execute, lift_int16, Outcome.bind_assoc, Outcome.value_bind,
        Lifted]
      exact Outcome.bind_congr fun r _ => lift_jump r.1
  | jumpIfNil | jumpIfNotNil => exact lift_jumpIf (hjump rfl)
  | lt | gt | le | ge | eq | ne => exact lift_comparison hpops
  | add | sub | mul | div | mod => exact lift_binary hpops
  | neg => exact lift_negate hpops
  | loadLocal0 | loadLocal1 | loadLocal2 | loadLocal3 => exact lift_loadLocal _
  | storeLocal0 | storeLocal1 | storeLocal2 | storeLocal3 =>
      exact lift_storeLocal _ hpops
  | sub1 | sub2 | add1 => exact lift_binaryImmediate hpops
  | call =>
      have hcallee : (m.lift base callers).callee ctx = _ :=
        lift_callee fun b hb => argc_eq hb ▸ hpops
      simp only [execute, call_eq, hcallee, Outcome.bind_assoc,
        Outcome.value_bind, Lifted]
      refine Outcome.bind_congr fun c _ => ?_
      cases c with
      | compiled m₁ args bc self => exact lift_enter _ _ _ _
      | result m₁ v => exact congrArg Outcome.value (lift_push _)
  | callSelf => exact lift_callSelf fun b hb => argc_eq hb ▸ hpops
  | tailCallSelf => exact lift_tailCallSelf fun b hb => argc_eq hb ▸ hpops
  | ret | tailCall => rfl

/-- An instruction does the same above another stack. -/
theorem lift_way
    (h : ∀ b op m₁, m.byte = .value (b, m₁) → VmOpcode.ofByte b = some op →
      Fed op m₁) :
    (m.lift base callers).way ctx =
      m.way ctx >>= fun w => .value (w.lift base callers) := by
  simp only [way, lift_byte, Outcome.bind_assoc, Outcome.value_bind]
  refine Outcome.bind_congr ?_
  rintro ⟨b, m₁⟩ hb
  cases hop : VmOpcode.ofByte b with
  | none => rfl
  | some op =>
      have hfed := h b op m₁ hb hop
      have hexecute : (m₁.lift base callers).execute ctx op = _ :=
        lift_execute hfed
      cases op with
      | ret =>
          simp only [lift_pop hfed.1, Outcome.bind_assoc, Outcome.value_bind]
          rfl
      | tailCall =>
          have hcallee : (m₁.lift base callers).callee ctx = _ :=
            lift_callee fun b hb => argc_eq hb ▸ hfed.1
          simp only [hcallee, Outcome.bind_assoc, Outcome.value_bind,
            Callee.lift_way]
      | _ =>
          simp only [hexecute, Lifted, Outcome.bind_assoc, Outcome.value_bind]
          rfl

/-- A return to a caller of the run itself. -/
theorem lift_return (v : Val) (h : m.frames ≠ []) :
    ∃ t, m.return_ v = .value (.goOn t) ∧ ∀ base callers,
      (m.lift base callers).return_ v =
        .value (.goOn (t.lift base callers)) := by
  obtain ⟨f, fs, hframes⟩ := List.exists_cons_of_ne_nil h
  refine ⟨_, by simp only [return_, hframes]; rfl, fun base callers => ?_⟩
  simp only [return_, lift, hframes, List.map_cons, List.cons_append,
    List.take_length_add_append, List.append_assoc, Frame.lift]

end Machine

end NewLispNeo
