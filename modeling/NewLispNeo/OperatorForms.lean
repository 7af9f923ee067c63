/-
The code of arithmetic and comparisons against the tree-walker, where the operands
are any expressions the code follows.
-/
import NewLispNeo.Assignments
import NewLispNeo.OperatorCode

namespace NewLispNeo

open StepRun Compiler
open Machine (arithOpcode comparisonOpcode comparisonTest negateCell)

section Tree

variable {rt : Runtime} {op : ArithOp} {ev : Evaluator} {σ σ' : Interp} {a b d : Cell}
  {v : Val} {e e' : Cell} {es : List Cell}

/-- The operands after the first one, combined as they are evaluated. -/
def operandLoop (rt : Runtime) (ev : Evaluator) (op : ArithOp) :
    Interp → Cell → List Cell → Outcome Error (Cell × Interp)
  | σ, a, [] => .value (a, σ)
  | σ, a, e :: es => do
      let (v, σ₁) ← ev σ e
      let d ← combine rt op a v.cell
      operandLoop rt ev op σ₁ d es

theorem integerLoop_eq_operandLoop (x : Word) :
    integerLoop rt ev op σ x es = operandLoop rt ev op σ (.long x) es := by
  induction es generalizing σ x with
  | nil => rfl
  | cons e es ih =>
      simp only [integerLoop, operandLoop, combine, getInteger64, Outcome.value_bind,
        Outcome.bind_assoc, ih]

theorem value_of_errorProcArgs {α : Type} {x : Outcome Error α} {y : α}
    (h : errorProcArgs v x = .value y) : x = .value y := by
  unfold errorProcArgs at h
  split at h
  · split at h <;> cases h
  · exact h

/-- A bigint that is still there when the next operand has been evaluated is used. -/
theorem operandLoop_of_bigintLoop {x : Bigint} (hx : v.cell = .bigint x)
    (h : bigintLoop rt ev op σ v es = .value (d, σ')) :
    operandLoop rt ev op σ v.cell es = .value (d, σ') := by
  induction es generalizing σ v x with
  | nil => exact h
  | cons e es ih =>
      simp only [bigintLoop, Outcome.bind_eq_value_iff, Prod.exists] at h
      obtain ⟨w, σ₁, hw, held, -, h⟩ := h
      split at h
      · rename_i y y' hy
        split at h
        · simp only [Outcome.bind_eq_value_iff] at h
          obtain ⟨z, hz, r, hr, h⟩ := h
          have hrest := ih (v := Val.temp (.bigint r)) rfl h
          simp only [operandLoop, hw, hy, combine, value_of_errorProcArgs hz, hr,
            Outcome.value_bind]
          exact hrest
        · cases h
      · cases h

theorem combine_of_not_bigint (ha : ∀ y, a ≠ .bigint y) (b : Cell) :
    combine rt op a b = (do
      let x ← getInteger64 rt a
      let y ← getInteger64 rt b
      let z ← intStep op x y
      .value (.long z)) := by
  cases a with
  | bigint y => exact absurd rfl (ha y)
  | _ => rfl

/-- The first operand of an integer operator is read before the others. -/
theorem operandLoop_of_getInteger64 {x : Word} (hbig : ∀ y, a ≠ .bigint y)
    (hx : getInteger64 rt a = .value x) :
    operandLoop rt ev op σ (.long x) (e :: es) = operandLoop rt ev op σ a (e :: es) := by
  have hcombine : ∀ b, combine rt op (.long x) b = combine rt op a b := by
    intro b
    rw [combine_of_not_bigint hbig, combine_of_not_bigint (by simp), hx]
    rfl
  simp only [operandLoop, hcombine]

/-- Two operands or more. -/
theorem arithmetikOp_value
    (h : arithmetikOp rt ev op σ (e :: e' :: es) = .value (d, σ')) :
    ∃ v σ₁, ev σ e = .value (v, σ₁) ∧
      operandLoop rt ev op σ₁ v.cell (e' :: es) = .value (d, σ') := by
  simp only [arithmetikOp, Outcome.bind_eq_value_iff, Prod.exists] at h
  obtain ⟨v, σ₁, hv, h⟩ := h
  refine ⟨v, σ₁, hv, ?_⟩
  split at h
  · rename_i hnil
    cases hnil
  · rename_i x hx _
    exact operandLoop_of_bigintLoop hx h
  · rename_i hnil _
    cases hnil
  · rename_i hbig _ _
    simp only [Outcome.bind_eq_value_iff] at h
    obtain ⟨x, hx, h⟩ := h
    rw [integerLoop_eq_operandLoop,
      operandLoop_of_getInteger64 hbig (value_of_errorProcArgs hx)] at h
    exact h

/-- A single operand. -/
theorem arithmetikOp_one (h : arithmetikOp rt ev op σ [e] = .value (d, σ')) :
    ∃ v, ev σ e = .value (v, σ') ∧
      (op = .subtract → negateCell rt v.cell = .value d) ∧
      (op ≠ .subtract → isInt v.cell = true → d = v.cell) := by
  simp only [arithmetikOp, Outcome.bind_eq_value_iff, Prod.exists] at h
  obtain ⟨v, σ₁, hv, h⟩ := h
  split at h
  · rename_i x hx _
    simp only [Outcome.value.injEq, Prod.mk.injEq] at h
    obtain ⟨rfl, rfl⟩ := h
    refine ⟨v, hv, fun hop => ?_, fun hop _ => ?_⟩
    · simp [hop, hx, negateCell]
    · simp [hop, hx]
  · rename_i hne
    exact absurd rfl hne
  · rename_i hbig
    simp only [Outcome.bind_eq_value_iff, Outcome.value.injEq, Prod.mk.injEq] at h
    obtain ⟨x, hx, rfl, rfl⟩ := h
    have hx' := value_of_errorProcArgs hx
    refine ⟨v, hv, fun hop => ?_, fun hop hint => ?_⟩
    · cases hcell : v.cell with
      | bigint y => exact absurd hcell (hbig y)
      | _ => simp_all [negateCell]
    · cases hcell : v.cell with
      | bigint y => exact absurd hcell (hbig y)
      | long n => simp_all [getInteger64]
      | _ => simp [hcell, isInt] at hint
  · rename_i hne _
    exact absurd rfl hne

theorem isSelfEval_of_isNumber (h : isNumber a = true) : isSelfEval a = true := by
  cases a <;> first | rfl | cases h

/-- Both operands of arithmetic that succeeds are numbers. -/
theorem selfEval_of_combine (h : combine rt op a b = .value d) :
    isSelfEval a = true ∧ isSelfEval b = true := by
  have ha := (combine_int rt op h).1
  refine ⟨isSelfEval_of_isNumber ha, isSelfEval_of_isNumber ?_⟩
  by_contra hb
  rw [combine_right_not_number ha (by simpa using hb)] at h
  cases h

/-- The increment of an integer does not depend on the order of the operands. -/
theorem combine_add_one (ha : ∀ y, a ≠ .bigint y) (h : combine rt .add (.long 1) a = .value d) :
    combine rt .add a (.long 1) = .value d := by
  rw [combine_of_not_bigint (by simp)] at h
  rw [combine_of_not_bigint ha]
  simp only [getInteger64, intStep, Outcome.value_bind, Outcome.bind_eq_value_iff,
    Outcome.value.injEq] at h ⊢
  obtain ⟨y, hy, rfl⟩ := h
  exact ⟨y, hy, by rw [BitVec.add_comm]⟩

end Tree

namespace Run

variable {R : Run} {sc : Scope} {F F' : List Val} {σ σ' σ₁ : Interp} {p : Nat} {v w : Val}
  {T : List Val} {c c' : Compiler} {ev : Evaluator} {a b d e : Cell} {es : List Cell}
  {op : ArithOp} {follows : Scope → Interp → Cell → Prop}
  {leavesOf : Demand → Interp → Cell → Prop}

section Opcodes

theorem goes_arith (hself : SelfEvaluates R.ctx.ev)
    (hd : combine R.ctx.compile.runtime op a b = .value d)
    (hcode : R.Code p [(arithOpcode op).toByte]) (hv : v.deref R.globals = .value a)
    (hw : w.deref R.globals = .value b) :
    R.Goes p F (T ++ [v, w]) (p + 1) F (T ++ [Val.temp d]) := by
  obtain ⟨ha, hb⟩ := selfEval_of_combine hd
  have h := Machine.yields_binary (m := R.machine p F (T ++ [v, w])) hself ha (fun _ => hb)
    hcode (List.append_assoc _ _ _).symm hv hw
  rw [hd] at h
  exact .of_reaches h (by simp [machine, Machine.goTo])

theorem goes_immediate {opcode : VmOpcode} {n : Word} (hself : SelfEvaluates R.ctx.ev)
    (hop : ∀ m : Machine, m.execute R.ctx opcode = m.binaryImmediate R.ctx op n)
    (hret : opcode ≠ .ret) (htail : opcode ≠ .tailCall)
    (hd : combine R.ctx.compile.runtime op a (.long n) = .value d)
    (hcode : R.Code p [opcode.toByte]) (hv : v.deref R.globals = .value a) :
    R.Goes p F (T ++ [v]) (p + 1) F (T ++ [Val.temp d]) := by
  have h := Machine.yields_binaryImmediate (m := R.machine p F (T ++ [v])) hself
    (selfEval_of_combine hd).1 hop hret htail hcode (List.append_assoc _ _ _).symm hv
  rw [hd] at h
  exact .of_reaches h (by simp [machine, Machine.goTo])

theorem goes_negate (hself : SelfEvaluates R.ctx.ev)
    (hd : negateCell R.ctx.compile.runtime a = .value d)
    (hcode : R.Code p [VmOpcode.neg.toByte]) (hv : v.deref R.globals = .value a) :
    R.Goes p F (T ++ [v]) (p + 1) F (T ++ [Val.temp d]) := by
  have ha : isSelfEval a = true := by
    cases a <;> first | rfl | cases hd
  have h := Machine.yields_neg (m := R.machine p F (T ++ [v])) hself ha hcode
    (List.append_assoc _ _ _).symm hv
  rw [hd] at h
  exact .of_reaches h (by simp [machine, Machine.goTo])

theorem goes_comparison (cop : CompareOp) {comp : Int}
    (hcomp : compareCells R.ctx.compile.runtime a b = .value comp)
    (hcode : R.Code p [(comparisonOpcode cop).toByte])
    (hv : v.deref R.globals = .value a) (hw : w.deref R.globals = .value b) :
    ∃ u, u.deref R.globals = .value (ofBool (comparisonTest cop comp)) ∧
      R.Goes p F (T ++ [v, w]) (p + 1) F (T ++ [u]) := by
  have hbefore : (R.machine p F (T ++ [v, w])).Before [(comparisonOpcode cop).toByte] := hcode
  have hstack : (R.machine p F (T ++ [v, w])).vmStack = R.base ++ F ++ T ++ [v, w] :=
    (List.append_assoc _ _ _).symm
  have h : Machine.Yields R.ctx (R.machine p F (T ++ [v, w])) _ _ _ :=
    Machine.yields_comparison hbefore hstack hv hw
  rw [hcomp] at h
  obtain ⟨u, hu, h⟩ := h
  exact ⟨u, hu, .of_reaches h (by simp [machine, Machine.goTo])⟩

end Opcodes

/-- An operand whose whole value is needed. -/
theorem operand_arrives (hsim : R.Simulates ev follows leavesOf)
    (hc : compileExpr R.ctx.compile e false c = .value c')
    (hev : ev σ e = .value (v, σ')) (hf : follows sc σ e) (hl : leavesOf .all σ e)
    (hp : R.Placed sc c c' p) (hr : R.Rel sc F σ) :
    ∃ F' w, R.Goes p F T (p + (emitted c c').length) F' (T ++ [w]) ∧
      w.deref R.globals = .value v.cell ∧ R.Rel sc F' σ' ∧ Kept sc F σ F' σ' := by
  obtain ⟨F', w, cell, hg, hw, hleaves, hr', hk⟩ := hsim T hc hev hf hp hr
  obtain rfl : cell = v.cell := (hleaves .all).mp hl
  exact ⟨F', w, hg, hw, hr', hk⟩

/-- The operands after the first fold over the value on top. -/
theorem operands_arrive (hself : SelfEvaluates R.ctx.ev)
    (hsim : R.Simulates ev follows leavesOf)
    (hc : compileOperands R.ctx.compile (arithOpcode op) es c = .value c')
    (hev : operandLoop R.ctx.compile.runtime ev op σ a es = .value (d, σ'))
    (hf : OperandsFollow ev follows leavesOf sc σ es) (hp : R.Placed sc c c' p)
    (hr : R.Rel sc F σ) (hw : w.deref R.globals = .value a) :
    ∃ F' w', R.Goes p F (T ++ [w]) (p + (emitted c c').length) F' (T ++ [w']) ∧
      w'.deref R.globals = .value d ∧ R.Rel sc F' σ' ∧ Kept sc F σ F' σ' := by
  induction es generalizing p F σ a c w with
  | nil =>
      simp only [compileOperands, Outcome.value.injEq] at hc
      simp only [operandLoop, Outcome.value.injEq, Prod.mk.injEq] at hev
      obtain ⟨rfl, rfl⟩ := hev
      subst hc
      refine ⟨F, w, ?_, hw, hr, Kept.refl sc F _⟩
      rw [emitted_self]
      exact Goes.refl
  | cons e es ih =>
      simp only [compileOperands, Outcome.bind_eq_value_iff] at hc
      obtain ⟨c₁, hc₁, hc⟩ := hc
      simp only [operandLoop, Outcome.bind_eq_value_iff, Prod.exists] at hev
      obtain ⟨v, σ₁, hv, d₁, hd₁, hev⟩ := hev
      obtain ⟨hfe, hl, hf⟩ := hf
      have hext₁ := compileExpr_extends hc₁
      have hop := (Extends.refl c₁).emitOp (arithOpcode op)
      have hext₂ := compileOperands_ext hc
      obtain ⟨F₁, w₁, hg₁, hw₁, hr₁, hk₁⟩ := operand_arrives (T := T ++ [w]) hsim hc₁ hv hfe hl
        (hp.fst hext₁ (hop.trans hext₂)) hr
      have hp₁ := hp.snd hext₁ (hop.trans hext₂)
      rw [List.append_assoc] at hg₁
      have hg₂ := goes_arith (F := F₁) (T := T) hself hd₁ (hp₁.fst hop hext₂).op hw hw₁
      have hp₂ := hp₁.snd hop hext₂
      rw [emitted_emitOp] at hp₂
      obtain ⟨F', w', hg', hw', hr', hk'⟩ := ih hc hev (hf v σ₁ hv) hp₂ hr₁ (Val.temp_deref _ _)
      refine ⟨F', w', ?_, hw', hr', hk₁.trans hk'⟩
      rw [hext₁.emitted_trans (hop.trans hext₂), hop.emitted_trans hext₂, emitted_emitOp]
      convert (hg₁.trans hg₂).trans hg' using 1
      simp only [List.length_append, List.length_singleton]
      omega

/-- What an operator leaves behind is what the tree-walker returns. -/
theorem Arrives.of_cell {F' : List Val} {p' : Nat} (hg : R.Goes p F T p' F' (T ++ [w]))
    (hw : w.deref R.globals = .value v.cell) (hr : R.Rel sc F' σ') (hk : Kept sc F σ F' σ') :
    R.Arrives sc p p' F T σ v σ' (fun _ => True) :=
  ⟨F', w, v.cell, hg, hw, by simp, hr, hk⟩

/-- Two operands or more of `+`, `-`, `*` or `/`. -/
theorem fold_arrives (op : ArithOp) {e' : Cell} {c₁ : Compiler} (hself : SelfEvaluates R.ctx.ev)
    (hsim : R.Simulates ev follows leavesOf)
    (hc₁ : compileExpr R.ctx.compile e false c = .value c₁)
    (hc : compileOperands R.ctx.compile (arithOpcode op) (e' :: es) c₁ = .value c')
    (hev : arithmetikOp R.ctx.compile.runtime ev op σ (e :: e' :: es) = .value (d, σ'))
    (hf : OperandsFollow ev follows leavesOf sc σ (e :: e' :: es)) (hp : R.Placed sc c c' p)
    (hr : R.Rel sc F σ) :
    R.Arrives sc p (p + (emitted c c').length) F T σ (Val.temp d) σ' (fun _ => True) := by
  obtain ⟨v, σ₁, hv, hev⟩ := arithmetikOp_value hev
  obtain ⟨hfe, hl, hf⟩ := hf
  have hext₁ := compileExpr_extends hc₁
  have hext₂ := compileOperands_ext hc
  obtain ⟨F₁, w₁, hg₁, hw₁, hr₁, hk₁⟩ := operand_arrives (T := T) hsim hc₁ hv hfe hl
    (hp.fst hext₁ hext₂) hr
  obtain ⟨F', w', hg', hw', hr', hk'⟩ := operands_arrive (T := T) hself hsim hc hev
    (hf v σ₁ hv) (hp.snd hext₁ hext₂) hr₁ hw₁
  refine .of_cell ?_ hw' hr' (hk₁.trans hk')
  rw [hext₁.emitted_trans hext₂, List.length_append, ← Nat.add_assoc]
  exact hg₁.trans hg'

/-- An operand and an opcode that works on it alone. -/
theorem unary_arrives {opcode : VmOpcode} {c₁ : Compiler}
    (hsim : R.Simulates ev follows leavesOf)
    (hc₁ : compileExpr R.ctx.compile e false c = .value c₁) (hev : ev σ e = .value (v, σ'))
    (hf : follows sc σ e) (hl : leavesOf .all σ e) (hp : R.Placed sc c (c₁.emitOp opcode) p)
    (hr : R.Rel sc F σ)
    (hop : ∀ {p F w}, R.Code p [opcode.toByte] → w.deref R.globals = .value v.cell →
      R.Goes p F (T ++ [w]) (p + 1) F (T ++ [Val.temp d])) :
    R.Arrives sc p (p + (emitted c (c₁.emitOp opcode)).length) F T σ (Val.temp d) σ'
      (fun _ => True) := by
  have hext₁ := compileExpr_extends hc₁
  have hext₂ := (Extends.refl c₁).emitOp opcode
  obtain ⟨F₁, w₁, hg₁, hw₁, hr₁, hk₁⟩ := operand_arrives (T := T) hsim hc₁ hev hf hl
    (hp.fst hext₁ hext₂) hr
  refine .of_cell (w := Val.temp d) ?_ (Val.temp_deref _ _) hr₁ hk₁
  rw [hext₁.emitted_trans hext₂, List.length_append, ← Nat.add_assoc, emitted_emitOp]
  exact hg₁.trans (hop (hp.snd hext₁ hext₂).op hw₁)

/-- An operand and an opcode for the other one, which is a small constant. -/
theorem immediate_arrives {opcode : VmOpcode} {n : Word} {c₁ : Compiler}
    (hself : SelfEvaluates R.ctx.ev) (hsim : R.Simulates ev follows leavesOf)
    (hop : ∀ m : Machine, m.execute R.ctx opcode = m.binaryImmediate R.ctx op n)
    (hret : opcode ≠ .ret) (htail : opcode ≠ .tailCall)
    (hc₁ : compileExpr R.ctx.compile e false c = .value c₁) (hev : ev σ e = .value (v, σ'))
    (hd : combine R.ctx.compile.runtime op v.cell (.long n) = .value d)
    (hf : follows sc σ e) (hl : leavesOf .all σ e) (hp : R.Placed sc c (c₁.emitOp opcode) p)
    (hr : R.Rel sc F σ) :
    R.Arrives sc p (p + (emitted c (c₁.emitOp opcode)).length) F T σ (Val.temp d) σ'
      (fun _ => True) :=
  unary_arrives hsim hc₁ hev hf hl hp hr fun hcode hw =>
    goes_immediate hself hop hret htail hd hcode hw

section Forms

variable {args : List Cell} (hself : SelfEvaluates R.ctx.ev)
  (hsim : R.Simulates ev follows leavesOf)
  (hlong : ∀ {σ n v σ'}, ev σ (.long n) = .value (v, σ') → v.cell = .long n ∧ σ' = σ)

include hsim

/-- The code of a single operand. -/
theorem single_arrives (hop : op ≠ .subtract)
    (hc : compileExpr R.ctx.compile e false c = .value c')
    (hev : arithmetikOp R.ctx.compile.runtime ev op σ [e] = .value (d, σ'))
    (hf : OperandsFollow ev follows leavesOf sc σ [e]) (hint : SingleInt ev σ [e])
    (hp : R.Placed sc c c' p) (hr : R.Rel sc F σ) :
    R.Arrives sc p (p + (emitted c c').length) F T σ (Val.temp d) σ' (fun _ => True) := by
  obtain ⟨v, hv, -, hd⟩ := arithmetikOp_one hev
  obtain rfl := hd hop (hint v σ' hv)
  obtain ⟨F', w, hg, hw, hr', hk⟩ := operand_arrives (T := T) hsim hc hv hf.1 hf.2.1 hp hr
  exact .of_cell hg hw hr' hk

include hself

/-- The code of `*`. -/
theorem multiply_arrives (hc : compileMultiply R.ctx.compile args c = .value c')
    (hev : arithmetikOp R.ctx.compile.runtime ev .multiply σ args = .value (d, σ'))
    (hf : OperandsFollow ev follows leavesOf sc σ args) (hint : SingleInt ev σ args)
    (hp : R.Placed sc c c' p) (hr : R.Rel sc F σ) :
    R.Arrives sc p (p + (emitted c c').length) F T σ (Val.temp d) σ' (fun _ => True) := by
  unfold compileMultiply at hc
  split at hc
  · obtain rfl := Outcome.value.inj hc
    simp only [arithmetikOp, Outcome.value.injEq, Prod.mk.injEq] at hev
    obtain ⟨rfl, rfl⟩ := hev
    rw [emitted_emitOp]
    exact .of_goes (goes_const1 hp.op) (Val.temp_deref _ _) hr (by simp)
  · rename_i e es
    simp only [Outcome.bind_eq_value_iff] at hc
    obtain ⟨c₁, hc₁, hc⟩ := hc
    cases es with
    | nil =>
        simp only [compileOperands, Outcome.value.injEq] at hc
        subst hc
        exact single_arrives hsim (by simp) hc₁ hev hf hint hp hr
    | cons e' es => exact fold_arrives .multiply hself hsim hc₁ hc hev hf hp hr

/-- The code of `/`. -/
theorem divide_arrives (hc : compileDivide R.ctx.compile args c = .value c')
    (hev : arithmetikOp R.ctx.compile.runtime ev .divide σ args = .value (d, σ'))
    (hf : OperandsFollow ev follows leavesOf sc σ args) (hp : R.Placed sc c c' p)
    (hr : R.Rel sc F σ) :
    R.Arrives sc p (p + (emitted c c').length) F T σ (Val.temp d) σ' (fun _ => True) := by
  unfold compileDivide at hc
  split at hc
  · simp only [Outcome.bind_eq_value_iff] at hc
    obtain ⟨c₁, hc₁, hc⟩ := hc
    exact fold_arrives .divide hself hsim hc₁ hc hev hf hp hr
  · cases hc

include hlong

/-- The code of `-`. -/
theorem subtract_arrives (hc : compileSubtract R.ctx.compile args c = .value c')
    (hev : arithmetikOp R.ctx.compile.runtime ev .subtract σ args = .value (d, σ'))
    (hf : OperandsFollow ev follows leavesOf sc σ args) (hp : R.Placed sc c c' p)
    (hr : R.Rel sc F σ) :
    R.Arrives sc p (p + (emitted c c').length) F T σ (Val.temp d) σ' (fun _ => True) := by
  unfold compileSubtract at hc
  split at hc
  · cases hc
  · simp only [Outcome.bind_eq_value_iff, Outcome.value.injEq] at hc
    obtain ⟨c₁, hc₁, rfl⟩ := hc
    obtain ⟨v, hv, hd, -⟩ := arithmetikOp_one hev
    exact unary_arrives hsim hc₁ hv hf.1 hf.2.1 hp hr fun hcode hw =>
      goes_negate hself (hd rfl) hcode hw
  · rename_i e e'
    obtain ⟨v, σ₁, hv, hloop⟩ := arithmetikOp_value hev
    simp only [operandLoop, Outcome.bind_eq_value_iff, Prod.exists, Outcome.value.injEq,
      Prod.mk.injEq] at hloop
    obtain ⟨v', σ₂, hv', d', hd, rfl, rfl⟩ := hloop
    split at hc
    · rename_i hone
      rw [isLong_iff] at hone
      subst hone
      simp only [Outcome.bind_eq_value_iff, Outcome.value.injEq] at hc
      obtain ⟨c₁, hc₁, rfl⟩ := hc
      obtain ⟨hcell, rfl⟩ := hlong hv'
      rw [hcell] at hd
      exact immediate_arrives hself hsim (fun _ => rfl) (by decide) (by decide) hc₁ hv hd hf.1
        hf.2.1 hp hr
    · split at hc
      · rename_i htwo
        rw [isLong_iff] at htwo
        subst htwo
        simp only [Outcome.bind_eq_value_iff, Outcome.value.injEq] at hc
        obtain ⟨c₁, hc₁, rfl⟩ := hc
        obtain ⟨hcell, rfl⟩ := hlong hv'
        rw [hcell] at hd
        exact immediate_arrives hself hsim (fun _ => rfl) (by decide) (by decide) hc₁ hv hd
          hf.1 hf.2.1 hp hr
      · simp only [Outcome.bind_eq_value_iff, Outcome.value.injEq] at hc
        obtain ⟨c₁, hc₁, c₂, hc₂, rfl⟩ := hc
        have hops : compileOperands R.ctx.compile (arithOpcode .subtract) [e'] c₁ =
            .value (c₂.emitOp .sub) := by
          simp [compileOperands, hc₂, arithOpcode]
        exact fold_arrives .subtract hself hsim hc₁ hops hev hf hp hr
  · rename_i e es hshort _
    simp only [Outcome.bind_eq_value_iff] at hc
    obtain ⟨c₁, hc₁, hc⟩ := hc
    cases es with
    | nil => exact absurd rfl hshort
    | cons e' es => exact fold_arrives .subtract hself hsim hc₁ hc hev hf hp hr

/-- The code of `+`. -/
theorem add_arrives (hc : compileAdd R.ctx.compile args c = .value c')
    (hev : arithmetikOp R.ctx.compile.runtime ev .add σ args = .value (d, σ'))
    (hf : OperandsFollow ev follows leavesOf sc σ args) (hint : SingleInt ev σ args)
    (hinc : IncrementInt ev σ args) (hp : R.Placed sc c c' p) (hr : R.Rel sc F σ) :
    R.Arrives sc p (p + (emitted c c').length) F T σ (Val.temp d) σ' (fun _ => True) := by
  unfold compileAdd at hc
  split at hc
  · obtain rfl := Outcome.value.inj hc
    simp only [arithmetikOp, Outcome.value.injEq, Prod.mk.injEq] at hev
    obtain ⟨rfl, rfl⟩ := hev
    rw [emitted_emitOp]
    exact .of_goes (goes_const0 hp.op) (Val.temp_deref _ _) hr (by simp)
  · rename_i e e'
    obtain ⟨v, σ₁, hv, hloop⟩ := arithmetikOp_value hev
    simp only [operandLoop, Outcome.bind_eq_value_iff, Prod.exists, Outcome.value.injEq,
      Prod.mk.injEq] at hloop
    obtain ⟨v', σ₂, hv', d', hd, rfl, rfl⟩ := hloop
    obtain ⟨hfe', hl', -⟩ := hf.2.2 v σ₁ hv
    split at hc
    · rename_i hone
      rw [isLong_iff] at hone
      subst hone
      simp only [Outcome.bind_eq_value_iff, Outcome.value.injEq] at hc
      obtain ⟨c₁, hc₁, rfl⟩ := hc
      obtain ⟨hcell, rfl⟩ := hlong hv'
      rw [hcell] at hd
      exact immediate_arrives hself hsim (fun _ => rfl) (by decide) (by decide) hc₁ hv hd hf.1
        hf.2.1 hp hr
    · split at hc
      · rename_i hone
        rw [isLong_iff] at hone
        subst hone
        simp only [Outcome.bind_eq_value_iff, Outcome.value.injEq] at hc
        obtain ⟨c₁, hc₁, rfl⟩ := hc
        obtain ⟨hcell, rfl⟩ := hlong hv
        rw [hcell] at hd
        have hd' := combine_add_one (hinc rfl v' _ hv') hd
        exact immediate_arrives hself hsim (fun _ => rfl) (by decide) (by decide) hc₁ hv' hd'
          hfe' hl' hp hr
      · simp only [Outcome.bind_eq_value_iff, Outcome.value.injEq] at hc
        obtain ⟨c₁, hc₁, c₂, hc₂, rfl⟩ := hc
        have hops : compileOperands R.ctx.compile (arithOpcode .add) [e'] c₁ =
            .value (c₂.emitOp .add) := by
          simp [compileOperands, hc₂, arithOpcode]
        exact fold_arrives .add hself hsim hc₁ hops hev hf hp hr
  · rename_i e es _
    simp only [Outcome.bind_eq_value_iff] at hc
    obtain ⟨c₁, hc₁, hc⟩ := hc
    cases es with
    | nil =>
        simp only [compileOperands, Outcome.value.injEq] at hc
        subst hc
        exact single_arrives hsim (by simp) hc₁ hev hf hint hp hr
    | cons e' es => exact fold_arrives .add hself hsim hc₁ hc hev hf hp hr

omit hself hlong

/-- The code of a comparison. -/
theorem compare_arrives {cop : CompareOp}
    (hc : compileCompare R.ctx.compile (comparisonOpcode cop) args c = .value c')
    (hev : compareOp R.ctx.compile.runtime ev cop σ args = .value (d, σ'))
    (hf : OperandsFollow ev follows leavesOf sc σ args)
    (hsteady : CompareFollows ev R.ctx.compile.runtime cop σ args) (hp : R.Placed sc c c' p)
    (hr : R.Rel sc F σ) :
    R.Arrives sc p (p + (emitted c c').length) F T σ (Val.shared d) σ' (fun _ => True) := by
  unfold compileCompare at hc
  split at hc
  · rename_i e e'
    simp only [Outcome.bind_eq_value_iff, Outcome.value.injEq] at hc
    obtain ⟨c₁, hc₁, c₂, hc₂, rfl⟩ := hc
    simp only [compareOp, compareLoop, Outcome.bind_eq_value_iff, Prod.exists] at hev
    obtain ⟨v, σ₁, hv, w, σ₂, hw, left, hleft, comp, hcomp, hev⟩ := hev
    obtain ⟨hfe, hl, hf⟩ := hf
    obtain ⟨hfe', hl', -⟩ := hf v σ₁ hv
    obtain ⟨hheld, hnan⟩ := hsteady v σ₁ hv w σ₂ hw
    obtain rfl := Outcome.value.inj (hleft.symm.trans hheld)
    have hd : d = ofBool (comparisonTest cop comp) ∧ σ₂ = σ' := by
      rw [← (compareStop_eq_iff cop comp).mpr fun hop heq => hnan hop (heq ▸ hcomp)]
      cases hstop : compareStop cop comp with
      | none =>
          simp only [hstop, Outcome.value.injEq, Prod.mk.injEq] at hev
          exact ⟨hev.1.symm, hev.2⟩
      | some stop =>
          simp only [hstop, Outcome.value.injEq, Prod.mk.injEq] at hev
          exact ⟨hev.1.symm, hev.2⟩
    obtain ⟨rfl, rfl⟩ := hd
    have hext₁ := compileExpr_extends hc₁
    have hext₂ := compileExpr_extends hc₂
    have hop := (Extends.refl c₂).emitOp (comparisonOpcode cop)
    obtain ⟨F₁, w₁, hg₁, hw₁, hr₁, hk₁⟩ := operand_arrives (T := T) hsim hc₁ hv hfe hl
      (hp.fst hext₁ (hext₂.trans hop)) hr
    have hp₁ := hp.snd hext₁ (hext₂.trans hop)
    obtain ⟨F₂, w₂, hg₂, hw₂, hr₂, hk₂⟩ := operand_arrives (T := T ++ [w₁]) hsim hc₂ hw hfe' hl'
      (hp₁.fst hext₂ hop) hr₁
    rw [List.append_assoc] at hg₂
    obtain ⟨u, hu, hg⟩ :=
      goes_comparison (F := F₂) (T := T) cop hcomp (hp₁.snd hext₂ hop).op hw₁ hw₂
    refine .of_cell ?_ hu hr₂ (hk₁.trans hk₂)
    rw [hext₁.emitted_trans (hext₂.trans hop), hext₂.emitted_trans hop, emitted_emitOp]
    convert (hg₁.trans hg₂).trans hg using 1
    simp only [List.length_append, List.length_singleton]
    omega
  · cases hc

end Forms

end Run

end NewLispNeo
