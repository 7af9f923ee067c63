/-
The arithmetic primitives as a left fold of one two-operand step, and the
machine's arithmetic as the same step.
-/
import Mathlib.Data.List.Forall2
import NewLispNeo.Interpreter

namespace NewLispNeo

/-- Evaluation leaves the cells that evaluate to themselves alone. -/
def SelfEvaluates (ev : Evaluator) : Prop :=
  ∀ σ c, isSelfEval c = true → ev σ c = .value (Val.temp c, σ)

theorem evaluateExpression_selfEvaluates (ctx : CompileContext) (vm : Bool)
    (fuel : Nat) : SelfEvaluates (evaluateExpression ctx vm (fuel + 1)) := by
  intro σ c hc
  cases c <;> first | rfl | simp [isSelfEval] at hc

section

variable (rt : Runtime) (op : ArithOp)

/-- One step of an arithmetic primitive: the type of the first operand decides
how the second is read. -/
def combine (a b : Cell) : Outcome Error Cell :=
  match a with
  | .bigint x => do
      let y ← getBigintSizeDirect rt b
      let z ← bigStep rt op x y
      .value (.bigint z)
  | a => do
      let x ← getInteger64 rt a
      let y ← getInteger64 rt b
      let z ← intStep op x y
      .value (.long z)

/-- The left fold of `combine`. -/
def combineAll (a : Cell) : List Cell → Outcome Error Cell
  | [] => .value a
  | b :: bs => do
      let c ← combine rt op a b
      combineAll c bs

theorem combine_of_not_number {a : Cell} (ha : isNumber a = false) (b : Cell) :
    combine rt op a b = .error .numberExpected := by
  cases a <;> first | rfl | simp [isNumber] at ha

/-- What `combine` returns is a bigint or a 64-bit integer, as its first
operand decides. -/
theorem combine_int {a b c : Cell} (h : combine rt op a b = .value c) :
    isNumber a = true ∧
      ((∃ x y, a = .bigint x ∧ c = .bigint y) ∨
        (∀ x, a ≠ .bigint x) ∧ ∃ y, c = .long y) := by
  cases a <;>
    simp only [combine, getInteger64, Outcome.bind_eq_value_iff,
      Outcome.error_bind, reduceCtorEq, Outcome.value.injEq] at h
  case long n =>
    obtain ⟨_, _, _, _, _, _, rfl⟩ := h
    exact ⟨rfl, .inr ⟨by simp, _, rfl⟩⟩
  case bigint x =>
    obtain ⟨_, _, _, _, rfl⟩ := h
    exact ⟨rfl, .inl ⟨_, _, rfl, rfl⟩⟩
  case float x =>
    obtain ⟨_, _, _, _, _, _, rfl⟩ := h
    exact ⟨rfl, .inr ⟨by simp, _, rfl⟩⟩

end

section

variable {rt : Runtime} {op : ArithOp} {ev : Evaluator}

theorem errorProcArgs_temp {α : Type} (c : Cell) (x : Outcome Error α) :
    errorProcArgs (Val.temp c) x = x := by
  unfold errorProcArgs
  split <;> simp

theorem errorProcArgs_of_not_nilCell {α : Type} {v : Val}
    (hv : v.isNilCell = false) (x : Outcome Error α) :
    errorProcArgs v x = x := by
  unfold errorProcArgs
  split <;> simp [hv]

/-- `arithmetikOp` on two cells that evaluate to themselves; the second is not
reached when the first is not a number. -/
theorem arithmetikOp_two (hev : SelfEvaluates ev) {a b : Cell}
    (ha : isSelfEval a = true) (hb : isNumber a = true → isSelfEval b = true)
    (σ : Interp) :
    arithmetikOp rt ev op σ [a, b] =
      (combine rt op a b >>= fun c => .value (c, σ)) := by
  simp only [arithmetikOp, hev σ a ha, Outcome.value_bind, Val.temp_cell]
  cases a with
  | bigint x =>
      simp [bigintLoop, hev σ b (hb rfl), errorProcArgs_temp, combine]
  | long x =>
      simp [getInteger64, errorProcArgs_temp, integerLoop, hev σ b (hb rfl),
        combine]
  | float x =>
      simp [getInteger64, errorProcArgs_temp, integerLoop, hev σ b (hb rfl),
        combine]
  | _ => simp [getInteger64, errorProcArgs_temp, combine]

/-- The machine's two-operand arithmetic is `combine`, on cells that evaluate
to themselves. -/
theorem Machine.arith_eq {ctx : MachineContext} (hev : SelfEvaluates ctx.ev)
    {a b : Cell} (ha : isSelfEval a = true)
    (hb : isNumber a = true → isSelfEval b = true) (σ : Interp) :
    Machine.arith ctx op a b σ =
      (combine ctx.compile.runtime op a b >>= fun c => .value (c, σ)) := by
  unfold Machine.arith
  split
  · rename_i x y
    simp [combine, getInteger64]
  · exact arithmetikOp_two hev ha hb σ

/-- The operands that evaluate to `vs` and leave the state as it is. -/
def EvalTo (ev : Evaluator) (σ : Interp) (params : List Cell) (vs : List Val) :
    Prop :=
  List.Forall₂ (fun p v => ev σ p = .value (v, σ)) params vs

theorem integerLoop_eq {σ : Interp} {params : List Cell} {vs : List Val}
    (h : EvalTo ev σ params vs) (x : Word) :
    integerLoop rt ev op σ x params =
      (combineAll rt op (.long x) (vs.map Val.cell) >>= fun c =>
        .value (c, σ)) := by
  induction h generalizing x with
  | nil => rfl
  | cons hp hps ih =>
      rename_i p v params vs
      simp only [integerLoop, hp, Outcome.value_bind, List.map_cons,
        combineAll, combine, getInteger64, Outcome.bind_assoc, ih]

end

end NewLispNeo
