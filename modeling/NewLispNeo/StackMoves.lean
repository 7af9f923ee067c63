/-
What one instruction does to the frames, to the instruction pointer and to the
height of the stack.
-/
import NewLispNeo.Instructions
import NewLispNeo.StackEffects

namespace NewLispNeo

namespace Machine

/-- The machine stays in its frame, and its stack changes by `change`
entries. -/
structure Stays (m m' : Machine) (change : Int) : Prop where
  bytecode : m'.bytecode = m.bytecode
  currentSelf : m'.currentSelf = m.currentSelf
  fp : m'.fp = m.fp
  frames : m'.frames = m.frames
  height : (m'.vmStack.length : Int) = m.vmStack.length + change

theorem Stays.trans {m m₁ m₂ : Machine} {d d' : Int} (h : Stays m m₁ d)
    (h' : Stays m₁ m₂ d') : Stays m m₂ (d + d') where
  bytecode := h'.bytecode.trans h.bytecode
  currentSelf := h'.currentSelf.trans h.currentSelf
  fp := h'.fp.trans h.fp
  frames := h'.frames.trans h.frames
  height := by rw [h'.height, h.height, Int.add_assoc]

/-- It reads `bytes` bytes of code there. -/
structure Moves (m m' : Machine) (bytes : Nat) (change : Int) : Prop
    extends Stays m m' change where
  ip : m'.ip = m.ip + bytes

namespace Moves

variable {m m₁ m₂ m' : Machine} {b b' : Nat} {d d' : Int}

theorem trans (h : Moves m m₁ b d) (h' : Moves m₁ m₂ b' d') :
    Moves m m₂ (b + b') (d + d') where
  toStays := h.toStays.trans h'.toStays
  ip := by rw [h'.ip, h.ip, Nat.add_assoc]

theorem push (m : Machine) (v : Val) : Moves m (m.push v) 0 1 :=
  ⟨⟨rfl, rfl, rfl, rfl, by simp [Machine.push]⟩, rfl⟩

theorem interp (m : Machine) (σ : Interp) :
    Moves m { m with interp := σ } 0 0 :=
  ⟨⟨rfl, rfl, rfl, rfl, by simp⟩, rfl⟩

theorem pop {v : Val} (h : m.pop = .value (v, m')) : Moves m m' 0 (-1) := by
  unfold Machine.pop at h
  cases hlast : m.vmStack.getLast? with
  | none => simp [hlast] at h
  | some w =>
      simp only [hlast, Outcome.value.injEq, Prod.mk.injEq] at h
      obtain ⟨-, rfl⟩ := h
      have hpos : 0 < m.vmStack.length := by
        cases hs : m.vmStack with
        | nil => simp [hs] at hlast
        | cons u us => simp
      refine ⟨⟨rfl, rfl, rfl, rfl, ?_⟩, rfl⟩
      simp only [List.length_dropLast]
      omega

theorem popCell {c : Cell} (h : m.popCell = .value (c, m')) :
    Moves m m' 0 (-1) := by
  simp only [Machine.popCell, Outcome.bind_eq_value_iff, Prod.exists,
    Outcome.value.injEq, Prod.mk.injEq] at h
  obtain ⟨v, m₁, hpop, -, -, -, rfl⟩ := h
  exact pop hpop

theorem byte {a : UInt8} (h : m.byte = .value (a, m')) :
    m.bytecode.code[m.ip]? = some a ∧ Moves m m' 1 0 := by
  unfold Machine.byte at h
  cases hcode : m.bytecode.code[m.ip]? with
  | none => simp [hcode] at h
  | some c =>
      simp only [hcode, Outcome.value.injEq, Prod.mk.injEq] at h
      obtain ⟨rfl, rfl⟩ := h
      exact ⟨rfl, ⟨rfl, rfl, rfl, rfl, by simp⟩, rfl⟩

theorem uint16 {n : Nat} (h : m.uint16 = .value (n, m')) :
    Moves m m' 2 0 := by
  simp only [Machine.uint16, Outcome.bind_eq_value_iff, Prod.exists,
    Outcome.value.injEq, Prod.mk.injEq] at h
  obtain ⟨lo, m₁, hlo, hi, m₂, hhi, -, rfl⟩ := h
  exact (byte hlo).2.trans (byte hhi).2

theorem int16 {offset : Int} (h : m.int16 = .value (offset, m')) :
    Moves m m' 2 0 := by
  simp only [Machine.int16, Outcome.bind_eq_value_iff, Prod.exists,
    Outcome.value.injEq, Prod.mk.injEq] at h
  obtain ⟨n, m₁, hn, -, rfl⟩ := h
  exact uint16 hn

theorem symbol {s : Symbol} (h : m.symbol = .value (s, m')) :
    Moves m m' 2 0 := by
  simp only [Machine.symbol, Outcome.bind_eq_value_iff, Prod.exists] at h
  obtain ⟨n, m₁, hn, h⟩ := h
  split at h
  · cases h
  · simp only [Outcome.value.injEq, Prod.mk.injEq] at h
    exact h.2 ▸ uint16 hn

theorem loadLocal {slot : Nat} (h : m.loadLocal slot = .value m') :
    Moves m m' 0 1 := by
  unfold Machine.loadLocal at h
  split at h
  · cases h
  · exact Outcome.value.inj h ▸ push m _

theorem storeLocal {slot : Nat} (h : m.storeLocal slot = .value m') :
    Moves m m' 0 (-1) := by
  simp only [Machine.storeLocal, Outcome.bind_eq_value_iff, Prod.exists,
    Outcome.value.injEq] at h
  obtain ⟨v, m₁, hpop, rfl⟩ := h
  have hm := pop hpop
  exact ⟨⟨hm.bytecode, hm.currentSelf, hm.fp, hm.frames,
    by simpa using hm.height⟩, hm.ip⟩

theorem storeGlobal (h : m.storeGlobal = .value m') :
    Moves m m' 2 (-1) := by
  simp only [Machine.storeGlobal, Outcome.bind_eq_value_iff, Prod.exists,
    Outcome.value.injEq] at h
  obtain ⟨s, m₁, hs, c, m₂, hc, rfl⟩ := h
  exact ((symbol hs).trans (popCell hc)).trans (interp _ _)

variable {ctx : MachineContext}

theorem binary {op : ArithOp} (h : m.binary ctx op = .value m') :
    Moves m m' 0 (-1) := by
  simp only [Machine.binary, Outcome.bind_eq_value_iff, Prod.exists,
    Outcome.value.injEq] at h
  obtain ⟨v, m₁, h₁, c, m₂, h₂, -, -, -, -, -, rfl⟩ := h
  exact (((pop h₁).trans (popCell h₂)).trans (interp _ _)).trans (push _ _)

theorem binaryImmediate {op : ArithOp} {n : Word}
    (h : m.binaryImmediate ctx op n = .value m') : Moves m m' 0 0 := by
  simp only [Machine.binaryImmediate, Outcome.bind_eq_value_iff, Prod.exists,
    Outcome.value.injEq] at h
  obtain ⟨c, m₁, h₁, -, -, -, rfl⟩ := h
  exact ((popCell h₁).trans (interp _ _)).trans (push _ _)

theorem negate (h : m.negate ctx = .value m') : Moves m m' 0 0 := by
  simp only [Machine.negate, Outcome.bind_eq_value_iff, Prod.exists] at h
  obtain ⟨c, m₁, h₁, h⟩ := h
  split at h
  · exact Outcome.value.inj h ▸ (popCell h₁).trans (push _ _)
  · simp only [Outcome.bind_eq_value_iff, Prod.exists,
      Outcome.value.injEq] at h
    obtain ⟨-, -, -, rfl⟩ := h
    exact ((popCell h₁).trans (interp _ _)).trans (push _ _)

theorem comparison {test : Int → Bool}
    (h : m.comparison ctx test = .value m') : Moves m m' 0 (-1) := by
  simp only [Machine.comparison, Outcome.bind_eq_value_iff, Prod.exists,
    Outcome.value.injEq] at h
  obtain ⟨v, m₁, h₁, c, m₂, h₂, -, -, -, -, rfl⟩ := h
  exact ((pop h₁).trans (popCell h₂)).trans (push _ _)

end Moves

end Machine

/-- The opcode stays in its frame and leads to the next instruction. -/
def VmOpcode.staysOn : VmOpcode → Bool
  | .jump | .jumpIfNil | .jumpIfNotNil | .ret | .call | .callSelf | .tailCall
  | .tailCallSelf => false
  | _ => true

namespace Machine

variable {ctx : MachineContext} {m m' : Machine}

/-- An instruction that stays in its frame reads its operand and changes the
height as its effect says. -/
theorem execute_moves {op : VmOpcode} (hop : op.staysOn = true)
    (h : m.execute ctx op = .value m') (n : Nat) :
    Moves m m' op.operandWidth
      ((⟨op, n⟩ : Instr).pushes - (⟨op, n⟩ : Instr).pops) := by
  cases op with
  | nop =>
      obtain rfl := Outcome.value.inj h
      exact .interp m m.interp
  | nil | true_ | loadSelf | const0 | const1 | const2 =>
      exact Outcome.value.inj h ▸ .push m _
  | const =>
      simp only [execute, Outcome.bind_eq_value_iff, Prod.exists] at h
      obtain ⟨i, m₁, hi, h⟩ := h
      split at h
      · cases h
      · exact Outcome.value.inj h ▸ (Moves.uint16 hi).trans (.push _ _)
  | pop =>
      simp only [execute, Outcome.bind_eq_value_iff, Prod.exists,
        Outcome.value.injEq] at h
      obtain ⟨v, m₁, h₁, rfl⟩ := h
      exact .pop h₁
  | dup =>
      simp only [execute] at h
      split at h
      · cases h
      · exact Outcome.value.inj h ▸ .push m _
  | loadLocal =>
      simp only [execute, Outcome.bind_eq_value_iff, Prod.exists] at h
      obtain ⟨i, m₁, hi, h⟩ := h
      exact (Moves.uint16 hi).trans (.loadLocal h)
  | storeLocal =>
      simp only [execute, Outcome.bind_eq_value_iff, Prod.exists] at h
      obtain ⟨i, m₁, hi, h⟩ := h
      exact (Moves.uint16 hi).trans (.storeLocal h)
  | loadGlobal =>
      simp only [execute, Outcome.bind_eq_value_iff, Prod.exists,
        Outcome.value.injEq] at h
      obtain ⟨s, m₁, hs, -, -, rfl⟩ := h
      exact (Moves.symbol hs).trans (.push _ _)
  | storeGlobal => exact .storeGlobal h
  | lt | gt | le | ge | eq | ne => exact .comparison h
  | add | sub | mul | div | mod => exact .binary h
  | neg => exact .negate h
  | loadLocal0 | loadLocal1 | loadLocal2 | loadLocal3 => exact .loadLocal h
  | storeLocal0 | storeLocal1 | storeLocal2 | storeLocal3 => exact .storeLocal h
  | sub1 | sub2 | add1 => exact .binaryImmediate h
  | jump | jumpIfNil | jumpIfNotNil | ret | call | callSelf | tailCall
  | tailCallSelf => cases hop

/-- A jump that is near its target leads there, or on when it is conditional. -/
theorem execute_jump {op : VmOpcode} {offset : Int} {t : Nat}
    (hop : op.isJump = true) (hbefore : m.Before (operand offset ++ []))
    (hlo : -32768 ≤ offset) (hhi : offset < 32768)
    (ht : ((m.ip + 2 : Nat) : Int) + offset = t)
    (h : m.execute ctx op = .value m') :
    Stays m m' (-op.jumpPops) ∧
      (m'.ip = t ∨ op.jumpFalls = true ∧ m'.ip = m.ip + 2) := by
  have hjump : ∀ {m₁ : Machine} {d : Int}, Stays m m₁ d → m₁.ip = m.ip + 2 →
      m₁.jump offset = .value m' → Stays m m' d ∧ m'.ip = t := by
    intro m₁ d hs hip hj
    unfold jump at hj
    split at hj
    · obtain rfl := Outcome.value.inj hj
      refine ⟨⟨hs.bytecode, hs.currentSelf, hs.fp, hs.frames, hs.height⟩, ?_⟩
      rw [hip]
      simp only
      omega
    · cases hj
  have hint := int16_eq hbefore hlo hhi
  have hif : ∀ {b : Bool}, m.jumpIf b = .value m' → Stays m m' (-1) ∧
      (m'.ip = t ∨ m'.ip = m.ip + 2) := by
    intro b hj
    simp only [jumpIf, hint, Outcome.value_bind, Outcome.bind_eq_value_iff,
      Prod.exists] at hj
    obtain ⟨c, m₁, hpop, hj⟩ := hj
    have hmoves := (Moves.int16 hint).trans (Moves.popCell hpop)
    split at hj
    · obtain ⟨hs, hip⟩ := hjump hmoves.toStays hmoves.ip hj
      exact ⟨hs, .inl hip⟩
    · obtain rfl := Outcome.value.inj hj
      exact ⟨hmoves.toStays, .inr hmoves.ip⟩
  cases op with
  | jump =>
      simp only [execute, hint, Outcome.value_bind] at h
      have hmoves := Moves.int16 hint
      obtain ⟨hs, hip⟩ := hjump hmoves.toStays hmoves.ip h
      exact ⟨hs, .inl hip⟩
  | jumpIfNil | jumpIfNotNil =>
      obtain ⟨hs, hip⟩ := hif h
      exact ⟨hs, hip.imp_right fun hip => ⟨rfl, hip⟩⟩
  | _ => cases hop

/-- `m'` is at the start of a callee whose frame is in the place of the top `n`
entries. -/
structure Enters (m m' : Machine) (n : Nat) : Prop where
  fp : m'.fp + n = m.vmStack.length
  ip : m'.ip = 0
  frames : m'.frames = ⟨m.bytecode, m.ip, m.fp, m.currentSelf⟩ :: m.frames
  slots : m'.fp + m'.bytecode.numLocals ≤ m'.vmStack.length

/-- `m'` is at the start of a callee on the frame of `m`. -/
structure Reenters (m m' : Machine) : Prop where
  fp : m'.fp = m.fp
  ip : m'.ip = 0
  frames : m'.frames = m.frames
  slots : m.fp ≤ m.vmStack.length →
    m'.fp + m'.bytecode.numLocals ≤ m'.vmStack.length

theorem topOf_eq {n : Nat} {below args : List Val}
    (h : m.topOf n = .value (below, args)) :
    below.length + n = m.vmStack.length ∧ args.length = n := by
  unfold topOf at h
  split at h
  · simp only [List.splitAt_eq, Outcome.value.injEq, Prod.mk.injEq] at h
    obtain ⟨rfl, rfl⟩ := h
    simp only [List.length_take, List.length_drop]
    omega
  · cases h

theorem numLocals_le_frameOf (bc : Bytecode) (args : List Val) :
    bc.numLocals ≤ (frameOf bc args).length := by
  simp only [frameOf, padTo, List.length_append, List.length_replicate]
  omega

theorem enter_enters {below args : List Val} {bc : Bytecode} {self : Cell}
    {n : Nat} (h : m.enter below args bc self = .value m')
    (hn : below.length + n = m.vmStack.length) : Enters m m' n := by
  unfold enter at h
  split at h
  · cases h
  · obtain rfl := Outcome.value.inj h
    refine ⟨hn, rfl, rfl, ?_⟩
    simp only [List.length_append]
    have hle := numLocals_le_frameOf bc args
    omega

theorem reenter_reenters (m : Machine) (args : List Val) (bc : Bytecode)
    (self : Cell) : Reenters m (m.reenter args bc self) := by
  refine ⟨rfl, rfl, rfl, fun hfp => ?_⟩
  simp only [reenter, List.length_append, List.length_take]
  have hle := numLocals_le_frameOf bc args
  omega

theorem callSelf_cases (h : m.callSelf = .value m') :
    ∃ b m₁, m.bytecode.code[m.ip]? = some b ∧ Moves m m₁ 1 0 ∧
      Enters m₁ m' b.toNat := by
  simp only [callSelf, Outcome.bind_eq_value_iff, Prod.exists] at h
  obtain ⟨b, m₁, hb, below, args, htop, h⟩ := h
  exact ⟨b, m₁, (Moves.byte hb).1, (Moves.byte hb).2,
    enter_enters h (topOf_eq htop).1⟩

theorem tailCallSelf_cases (h : m.tailCallSelf = .value m') :
    ∃ m₁, Moves m m₁ 1 0 ∧ Reenters m₁ m' ∧ m'.bytecode = m.bytecode := by
  simp only [tailCallSelf, Outcome.bind_eq_value_iff, Prod.exists,
    Outcome.value.injEq] at h
  obtain ⟨b, m₁, hb, below, args, htop, rfl⟩ := h
  have hmoves := (Moves.byte hb).2
  exact ⟨m₁, hmoves, reenter_reenters _ _ _ _, hmoves.bytecode⟩

/-- The operands of a call and its function are off the stack. -/
theorem target_stays {b : UInt8} {m₁ m₂ : Machine} {below args : List Val}
    {v : Val} (hb : m.byte = .value (b, m₁))
    (htop : m₁.topOf b.toNat = .value (below, args))
    (hpop : { m₁ with vmStack := below }.pop = .value (v, m₂)) :
    Moves m m₂ 1 (-(b.toNat + 1)) := by
  have hmoves := (Moves.byte hb).2
  have hlen := (topOf_eq htop).1
  have htaken : Moves m₁ { m₁ with vmStack := below } 0 (-b.toNat) :=
    ⟨⟨rfl, rfl, rfl, rfl, by simp only; omega⟩, rfl⟩
  have hall := (hmoves.trans htaken).trans (Moves.pop hpop)
  exact ⟨⟨hall.bytecode, hall.currentSelf, hall.fp, hall.frames,
    by rw [hall.height]; omega⟩, hall.ip⟩

/-- A call enters its function, or leaves the result of that on the stack. -/
theorem call_cases (h : m.call ctx = .value m') :
    ∃ b, m.bytecode.code[m.ip]? = some b ∧
      (Moves m m' 1 (-b.toNat) ∨
        ∃ m₁, Moves m m₁ 1 0 ∧ Enters m₁ m' (b.toNat + 1)) := by
  simp only [call, Outcome.bind_eq_value_iff, Prod.exists] at h
  obtain ⟨b, m₁, hb, below, args, htop, v, m₂, hpop, target, -, h⟩ := h
  have hmoves := (Moves.byte hb).2
  have htarget := target_stays hb htop hpop
  refine ⟨b, (Moves.byte hb).1, ?_⟩
  split at h
  all_goals
    obtain ⟨bc, -, h⟩ := Outcome.bind_eq_value_iff.mp h
    cases bc with
    | some bc =>
        have henter := enter_enters h (Nat.add_zero _)
        refine .inr ⟨m₁, hmoves, ⟨?_, henter.ip, ?_, henter.slots⟩⟩
        · have hlen := htarget.height
          have hlen₁ := hmoves.height
          have hfp := henter.fp
          omega
        · rw [henter.frames, htarget.bytecode, htarget.ip, htarget.fp,
            htarget.currentSelf, htarget.frames, hmoves.bytecode, hmoves.ip,
            hmoves.fp, hmoves.currentSelf, hmoves.frames]
    | none =>
        simp only [Outcome.bind_eq_value_iff, Prod.exists,
          Outcome.value.injEq] at h
        obtain ⟨res, σ, -, rfl⟩ := h
        have hall := (htarget.trans (.interp _ σ)).trans (.push _ res)
        exact .inl ⟨⟨hall.bytecode, hall.currentSelf, hall.fp, hall.frames,
          by rw [hall.height]; omega⟩, hall.ip⟩

/-- A tail call enters its function in place, or returns the result of that. -/
theorem tailCall_cases {next : Next} (h : m.tailCall ctx = .value next) :
    ∃ b m₁, m.bytecode.code[m.ip]? = some b ∧
      Stays m m₁ (-(b.toNat + 1)) ∧
      ((∃ m', next = .goOn m' ∧ Reenters m₁ m') ∨
        ∃ v, m₁.return_ v = .value next) := by
  simp only [tailCall, Outcome.bind_eq_value_iff, Prod.exists] at h
  obtain ⟨b, m₁, hb, below, args, htop, v, m₂, hpop, target, -, h⟩ := h
  have htarget := target_stays hb htop hpop
  split at h
  all_goals
    obtain ⟨bc, -, h⟩ := Outcome.bind_eq_value_iff.mp h
    cases bc with
    | some bc =>
        obtain rfl := Outcome.value.inj h
        exact ⟨b, m₂, (Moves.byte hb).1, htarget.toStays,
          .inl ⟨_, rfl, reenter_reenters _ _ _ _⟩⟩
    | none =>
        simp only [Outcome.bind_eq_value_iff, Prod.exists] at h
        obtain ⟨res, σ, -, h⟩ := h
        have hall := (htarget.trans (.interp _ σ)).toStays
        refine ⟨b, _, (Moves.byte hb).1, ⟨hall.bytecode, hall.currentSelf,
          hall.fp, hall.frames, ?_⟩, .inr ⟨res, h⟩⟩
        have hlen := htarget.height
        simpa using hlen

/-- A return leads back to the caller, if there is one. -/
theorem return_cases {v : Val} {next : Next} (h : m.return_ v = .value next) :
    (m.frames = [] ∧ ∃ r, next = .done r) ∨
      ∃ fr frames m', m.frames = fr :: frames ∧ next = .goOn m' ∧
        m'.bytecode = fr.bytecode ∧ m'.ip = fr.ip ∧ m'.fp = fr.fp ∧
        m'.frames = frames ∧ m'.vmStack = m.vmStack.take m.fp ++ [v] := by
  unfold return_ at h
  split at h
  · rename_i hframes
    simp only [Outcome.bind_eq_value_iff, Outcome.value.injEq] at h
    obtain ⟨c, -, rfl⟩ := h
    exact .inl ⟨hframes, _, rfl⟩
  · rename_i fr frames hframes
    exact .inr ⟨fr, frames, _, hframes, (Outcome.value.inj h).symm, rfl, rfl,
      rfl, rfl, rfl⟩

end Machine

end NewLispNeo
