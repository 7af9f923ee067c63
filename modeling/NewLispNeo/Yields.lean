/-
Code that leaves one more value on the stack of its frame, or fails: `Yields`
follows the outcome of the expression the code was made from.
-/
import NewLispNeo.CodeShape
import NewLispNeo.ArithFold

namespace NewLispNeo

open StepRun

namespace Machine

variable {ctx : MachineContext} {m : Machine} {ip ip' : Nat}
  {vs vs' : List Val} {v w : Val} {x : Outcome Error Cell}

/-- The run from `m` gets to `ip` in the same frame with the value of `x` on top
of `vs`, or ends as `x` fails. -/
def Yields (ctx : MachineContext) (m : Machine) (ip : Nat) (vs : List Val)
    (x : Outcome Error Cell) : Prop :=
  match x with
  | .value c => ∃ w, w.deref m.interp = .value c ∧
      Reaches (step ctx) m (m.goTo ip (vs ++ [w]))
  | .error e => EndsIn (step ctx) m (.error e)
  | .undefined => EndsIn (step ctx) m .undefined
  | .timeout => EndsIn (step ctx) m .timeout

theorem Yields.value {c : Cell} (hw : w.deref m.interp = .value c)
    (h : Reaches (step ctx) m (m.goTo ip (vs ++ [w]))) :
    Yields ctx m ip vs (.value c) := ⟨w, hw, h⟩

/-- As `Yields`, and the value on top is a cell of its own. -/
def YieldsNew (ctx : MachineContext) (m : Machine) (ip : Nat) (vs : List Val)
    (x : Outcome Error Cell) : Prop :=
  match x with
  | .value c => Reaches (step ctx) m (m.goTo ip (vs ++ [Val.temp c]))
  | .error e => EndsIn (step ctx) m (.error e)
  | .undefined => EndsIn (step ctx) m .undefined
  | .timeout => EndsIn (step ctx) m .timeout

theorem YieldsNew.yields (h : YieldsNew ctx m ip vs x) :
    Yields ctx m ip vs x := by
  cases x with
  | value c => exact .value (w := Val.temp c) rfl h
  | error e => exact h
  | undefined => exact h
  | timeout => exact h

theorem YieldsNew.of_step
    (h : m.step ctx = (x >>= fun c =>
      .value (.goOn (m.goTo ip (vs ++ [Val.temp c]))))) :
    YieldsNew ctx m ip vs x := by
  cases x with
  | value c => exact .single h
  | error e => exact endsIn_error h
  | undefined => exact endsIn_undefined h
  | timeout => exact endsIn_timeout h

theorem Yields.of_reaches (h : Reaches (step ctx) m (m.goTo ip' vs'))
    (hy : Yields ctx (m.goTo ip' vs') ip vs x) : Yields ctx m ip vs x := by
  cases x with
  | value c =>
      obtain ⟨w, hw, hr⟩ := hy
      exact ⟨w, hw, h.trans hr⟩
  | error e => exact h.endsIn hy
  | undefined => exact h.endsIn hy
  | timeout => exact h.endsIn hy

theorem Yields.bind {f : Cell → Outcome Error Cell}
    (h : Yields ctx m ip vs x)
    (hf : ∀ c w, x = .value c → w.deref m.interp = .value c →
      Yields ctx (m.goTo ip (vs ++ [w])) ip' vs' (f c)) :
    Yields ctx m ip' vs' (x >>= f) := by
  cases x with
  | value c =>
      obtain ⟨w, hw, hr⟩ := h
      exact .of_reaches hr (hf c w rfl hw)
  | error e => exact h
  | undefined => exact h
  | timeout => exact h

/-- What follows the code of an expression decides how the run ends. -/
theorem Yields.endsIn {f : Cell → Outcome Error (Cell × Interp)}
    (h : Yields ctx m ip vs x)
    (hf : ∀ c w, w.deref m.interp = .value c →
      EndsIn (step ctx) (m.goTo ip (vs ++ [w])) (f c)) :
    EndsIn (step ctx) m (x >>= f) := by
  cases x with
  | value c =>
      obtain ⟨w, hw, hr⟩ := h
      exact hr.endsIn (hf c w hw)
  | error e => exact h
  | undefined => exact h
  | timeout => exact h

theorem YieldsNew.of_reaches (h : Reaches (step ctx) m (m.goTo ip' vs'))
    (hy : YieldsNew ctx (m.goTo ip' vs') ip vs x) :
    YieldsNew ctx m ip vs x := by
  cases x with
  | value c => exact h.trans hy
  | error e => exact h.endsIn hy
  | undefined => exact h.endsIn hy
  | timeout => exact h.endsIn hy

theorem YieldsNew.endsIn {f : Cell → Outcome Error (Cell × Interp)}
    (h : YieldsNew ctx m ip vs x)
    (hf : ∀ c, EndsIn (step ctx) (m.goTo ip (vs ++ [Val.temp c])) (f c)) :
    EndsIn (step ctx) m (x >>= f) := by
  cases x with
  | value c => exact h.endsIn (hf c)
  | error e => exact h
  | undefined => exact h
  | timeout => exact h

/-- `OP_RET` of the outermost frame. -/
theorem endsIn_ret {c : Cell} (h : m.Before [VmOpcode.ret.toByte])
    (hvs : m.vmStack = vs ++ [v]) (hv : v.deref m.interp = .value c)
    (hframes : m.frames = []) :
    EndsIn (step ctx) m (.value (c, m.interp)) := by
  apply endsIn_done
  simp only [step, byte_eq h, Outcome.value_bind, VmOpcode.ofByte_toByte, hvs,
    pop_goTo, return_, goTo_frames, hframes, goTo_interp, hv]

/-- The opcodes of two-operand arithmetic. -/
def arithOpcode : ArithOp → VmOpcode
  | .add => .add
  | .subtract => .sub
  | .multiply => .mul
  | .divide => .div
  | .modulo => .mod

theorem execute_arithOpcode (op : ArithOp) (m : Machine) :
    m.execute ctx (arithOpcode op) = m.binary ctx op := by cases op <;> rfl

section

variable {a b : Cell} (hev : SelfEvaluates ctx.ev)
  (ha : isSelfEval a = true)

include hev ha

/-- Two-operand arithmetic on cells that evaluate to themselves. -/
theorem yields_binary {op : ArithOp}
    (hb : isNumber a = true → isSelfEval b = true)
    (h : m.Before [(arithOpcode op).toByte]) (hvs : m.vmStack = vs ++ [v, w])
    (hv : v.deref m.interp = .value a) (hw : w.deref m.interp = .value b) :
    YieldsNew ctx m (m.ip + 1) vs (combine ctx.compile.runtime op a b) := by
  apply YieldsNew.of_step
  have hvs' : m.vmStack = (vs ++ [v]) ++ [w] := by simp [hvs]
  rw [step_execute h (by cases op <;> decide) (by cases op <;> decide),
    execute_arithOpcode, hvs']
  simp only [binary, pop_goTo, Outcome.value_bind, popCell_goTo _ hv,
    goTo_interp, hw, arith_eq hev ha hb, Outcome.bind_assoc]
  rfl

theorem yields_binaryImmediate {opcode : VmOpcode} {op : ArithOp} {n : Word}
    (hop : ∀ m : Machine, m.execute ctx opcode = m.binaryImmediate ctx op n)
    (hret : opcode ≠ .ret) (htail : opcode ≠ .tailCall)
    (h : m.Before [opcode.toByte]) (hvs : m.vmStack = vs ++ [v])
    (hv : v.deref m.interp = .value a) :
    YieldsNew ctx m (m.ip + 1) vs
      (combine ctx.compile.runtime op a (.long n)) := by
  have hb : isNumber a = true → isSelfEval (.long n) = true := fun _ => rfl
  apply YieldsNew.of_step
  rw [step_execute h hret htail, hop, hvs]
  simp only [binaryImmediate, popCell_goTo _ hv, Outcome.value_bind,
    goTo_interp, arith_eq hev ha hb, Outcome.bind_assoc]
  rfl

theorem yields_add1 (h : m.Before [VmOpcode.add1.toByte])
    (hvs : m.vmStack = vs ++ [v]) (hv : v.deref m.interp = .value a) :
    YieldsNew ctx m (m.ip + 1) vs (combine ctx.compile.runtime .add a (.long 1)) :=
  yields_binaryImmediate hev ha (fun _ => rfl) (by decide) (by decide) h hvs hv

theorem yields_sub1 (h : m.Before [VmOpcode.sub1.toByte])
    (hvs : m.vmStack = vs ++ [v]) (hv : v.deref m.interp = .value a) :
    YieldsNew ctx m (m.ip + 1) vs
      (combine ctx.compile.runtime .subtract a (.long 1)) :=
  yields_binaryImmediate hev ha (fun _ => rfl) (by decide) (by decide) h hvs hv

theorem yields_sub2 (h : m.Before [VmOpcode.sub2.toByte])
    (hvs : m.vmStack = vs ++ [v]) (hv : v.deref m.interp = .value a) :
    YieldsNew ctx m (m.ip + 1) vs
      (combine ctx.compile.runtime .subtract a (.long 2)) :=
  yields_binaryImmediate hev ha (fun _ => rfl) (by decide) (by decide) h hvs hv

end

/-- What a single operand of `-` becomes. -/
def negateCell (rt : Runtime) : Cell → Outcome Error Cell
  | .bigint x => .value (.bigint (negateBigint x))
  | a => do
      let x ← getInteger64 rt a
      .value (.long (-x))

theorem yields_neg {a : Cell} (hev : SelfEvaluates ctx.ev)
    (ha : isSelfEval a = true) (h : m.Before [VmOpcode.neg.toByte])
    (hvs : m.vmStack = vs ++ [v]) (hv : v.deref m.interp = .value a) :
    YieldsNew ctx m (m.ip + 1) vs (negateCell ctx.compile.runtime a) := by
  apply YieldsNew.of_step
  rw [step_execute h (by decide) (by decide), hvs]
  cases a with
  | long x =>
      simp only [execute, negate, popCell_goTo _ hv, Outcome.value_bind,
        negateCell, getInteger64]
      rfl
  | bigint x =>
      simp only [execute, negate, popCell_goTo _ hv, Outcome.value_bind,
        negateCell, arithmetikOp, goTo_interp, hev _ _ ha, Val.temp_cell]
      rfl
  | _ =>
      simp only [execute, negate, popCell_goTo _ hv, Outcome.value_bind,
        negateCell, arithmetikOp, goTo_interp, hev _ _ ha, Val.temp_cell,
        errorProcArgs_temp, Outcome.bind_assoc]
      rfl

/-- The test a comparison opcode makes on the sign of `compareCells`. -/
def comparisonTest : CompareOp → Int → Bool
  | .less => (· < 0)
  | .greater => (0 < ·)
  | .lessEqual => (· ≤ 0)
  | .greaterEqual => (0 ≤ ·)
  | .equal => (· = 0)
  | .notEqual => (· ≠ 0)

def comparisonOpcode : CompareOp → VmOpcode
  | .less => .lt
  | .greater => .gt
  | .lessEqual => .le
  | .greaterEqual => .ge
  | .equal => .eq
  | .notEqual => .ne

theorem yields_comparison {op : CompareOp} {a b : Cell}
    (h : m.Before [(comparisonOpcode op).toByte])
    (hvs : m.vmStack = vs ++ [v, w]) (hv : v.deref m.interp = .value a)
    (hw : w.deref m.interp = .value b) :
    Yields ctx m (m.ip + 1) vs (compareCells ctx.compile.runtime a b >>=
      fun comp => .value (ofBool (comparisonTest op comp))) := by
  have hvs' : m.vmStack = (vs ++ [v]) ++ [w] := by simp [hvs]
  have hstep : m.step ctx = (compareCells ctx.compile.runtime a b >>=
      fun comp => .value (.goOn (m.goTo (m.ip + 1)
        (vs ++ [Val.shared (ofBool (comparisonTest op comp))])))) := by
    rw [step_execute h (by cases op <;> decide) (by cases op <;> decide), hvs']
    have he : ∀ m : Machine, m.execute ctx (comparisonOpcode op) =
        m.comparison ctx (comparisonTest op) := by intro m; cases op <;> rfl
    simp only [he, comparison, pop_goTo, Outcome.value_bind,
      popCell_goTo _ hv, goTo_interp, hw, Outcome.bind_assoc, push_goTo]
  cases hc : compareCells ctx.compile.runtime a b with
  | value comp =>
      rw [hc] at hstep
      exact .value (w := Val.shared (ofBool (comparisonTest op comp))) rfl
        (.single hstep)
  | error e => rw [hc] at hstep; exact endsIn_error hstep
  | undefined => rw [hc] at hstep; exact endsIn_undefined hstep
  | timeout => rw [hc] at hstep; exact endsIn_timeout hstep

end Machine

end NewLispNeo
