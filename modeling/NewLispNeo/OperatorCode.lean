/-
A lambda whose body is one inlined operator: what the primitive makes of its
operands, what the emitted code makes of them, and when the two agree.
-/
import NewLispNeo.Operators
import NewLispNeo.Startup

namespace NewLispNeo

open StepRun Machine Compiler

section Tree

variable {rt : Runtime} {flags : SymbolFlags} {op : ArithOp} {ev : Evaluator}
  {σ : Interp} {params : List Cell} {vs : List Val}

theorem treeAll_long (x : Word) (ws : List Val) :
    treeAll rt op (.long x) ws =
      combineAll rt op (.long x) (ws.map Val.cell) := by
  induction ws generalizing x with
  | nil => rfl
  | cons w ws ih =>
      simp only [treeAll, treeStep, combineAll, List.map_cons]
      cases h : combine rt op (.long x) w.cell with
      | value c =>
          obtain ⟨-, ⟨_, _, h', -⟩ | ⟨-, z, rfl⟩⟩ := combine_int rt op h
          · cases h'
          · simpa using ih z
      | _ => rfl

/-- The first operand of a fold over integers is converted once. -/
theorem treeAll_of_not_bigint {a : Cell} (ha : ∀ x, a ≠ .bigint x) (w : Val)
    (ws : List Val) :
    treeAll rt op a (w :: ws) = (getInteger64 rt a >>= fun x =>
      combineAll rt op (.long x) ((w :: ws).map Val.cell)) := by
  have hstep : treeStep rt op a w = combine rt op a w.cell := by
    cases a with
    | bigint x => exact absurd rfl (ha x)
    | _ => rfl
  have hcombine : combine rt op a w.cell =
      (getInteger64 rt a >>= fun x => combine rt op (.long x) w.cell) := by
    cases a with
    | bigint x => exact absurd rfl (ha x)
    | _ => rfl
  simp only [treeAll, hstep, hcombine, Outcome.bind_assoc, List.map_cons,
    combineAll]
  congr 1
  funext x
  simp only [combine, getInteger64, Outcome.value_bind, Outcome.bind_assoc,
    treeAll_long]

theorem bigintLoop_eq (h : EvalTo ev σ params vs) (v : Val) {x : Bigint}
    (hx : v.cell = .bigint x) (hv : v.deref σ = .value (.bigint x)) :
    bigintLoop rt ev op σ v params =
      (treeAll rt op (.bigint x) vs >>= fun c => .value (c, σ)) := by
  induction h generalizing v x with
  | nil => simp [bigintLoop, treeAll, hx]
  | cons hp hps ih =>
      rename_i p w params ws
      simp only [bigintLoop, hp, Outcome.value_bind, hv, hx, if_true, treeAll,
        treeStep]
      cases hw : w.isNilCell with
      | true =>
          simp [Val.cell_of_isNilCell hw, combine, getBigintSizeDirect,
            errorProcArgs, hw]
      | false =>
          simp only [errorProcArgs_of_not_nilCell hw, combine,
            Outcome.bind_assoc, Outcome.value_bind]
          congr 1
          funext y
          congr 1
          funext z
          exact ih (Val.temp (.bigint z)) rfl rfl

theorem arithmetikOp_eq (h : EvalTo ev σ params vs)
    (hvalid : ∀ v ∈ vs, v.deref σ = .value v.cell)
    (hempty : params = [] → op = .add ∨ op = .multiply) :
    arithmetikOp rt ev op σ params =
      (treeFold rt op vs >>= fun c => .value (c, σ)) := by
  cases h with
  | nil => rcases hempty rfl with rfl | rfl <;> rfl
  | cons hp hps =>
      rename_i p v params vs
      cases hps with
      | nil =>
          simp only [arithmetikOp, hp, Outcome.value_bind, treeFold]
          cases v.cell <;> simp
      | cons hq hps =>
          rename_i q w params vs
          have hvalid := hvalid v List.mem_cons_self
          simp only [arithmetikOp, hp, Outcome.value_bind, treeFold]
          cases hnil : v.isNilCell with
          | true =>
              simp [Val.cell_of_isNilCell hnil, getInteger64, errorProcArgs,
                hnil]
          | false =>
              simp only [Bool.false_eq_true, if_false,
                errorProcArgs_of_not_nilCell hnil]
              by_cases hbig : ∃ x, v.cell = .bigint x
              · obtain ⟨x, hx⟩ := hbig
                rw [hx] at hvalid ⊢
                exact bigintLoop_eq (.cons hq hps) v hx hvalid
              · have hbig : ∀ x, v.cell ≠ .bigint x :=
                  fun x hx => hbig ⟨x, hx⟩
                rw [treeAll_of_not_bigint hbig, Outcome.bind_assoc]
                cases hv : v.cell with
                | bigint x => exact absurd hv (hbig x)
                | _ =>
                    simp only
                    congr 1
                    funext x
                    exact integerLoop_eq (.cons hq hps) x

theorem compareOp_eq (rt : Runtime) (cop : CompareOp) {v w : Val}
    (h : EvalTo ev σ params [v, w]) (hv : v.deref σ = .value v.cell) :
    compareOp rt ev cop σ params =
      (treeCompare rt cop [v, w] >>= fun c => .value (c, σ)) := by
  cases h with
  | cons hp hps =>
      cases hps with
      | cons hq hps =>
          cases hps
          simp only [compareOp, hp, Outcome.value_bind, compareLoop, hq, hv,
            treeCompare, Outcome.bind_assoc]
          congr 1
          funext comp
          cases compareStop cop comp <;> rfl

theorem incDecF_eq {type : Bool} {s : Symbol} (hev : SelfEvaluates ev)
    (hs : s ≠ itSymbol) (hplace : isSelfEval (σ.contents s) = true)
    (h : EvalTo ev σ params vs) :
    incDecF rt flags ev type σ (.symbol s :: params) =
      (treeIncDec rt flags type (.symbol s :: params)
        (Val.ofSymbol σ s :: vs) >>= fun c => .value (c, σ.overwrite s c)) := by
  have hone : getFloat rt (.long 1#64) = .value (Binary64.ofInt 1) := rfl
  have hread := hev σ _ hplace
  simp only [incDecF, if_neg hs, Val.ofSymbol_cell, treeIncDec]
  by_cases hprot : isProtected flags s = true
  · simp [hprot]
  by_cases hnil : isNil (σ.contents s) = true <;>
    by_cases hcell : (Val.ofSymbol σ s).isNilCell = true <;>
    cases h with
    | nil => simp [hprot, hnil, hcell, hread, deltaOf, hone, ofSymbol_deref]
    | cons hp hps =>
        simp [hprot, hnil, hcell, hread, hp, deltaOf, ofSymbol_deref]

/-- The value of an operand is that of its cell at once. -/
theorem operandVal_deref (σ : Interp) (e : Cell) :
    (operandVal σ e).deref σ = .value (operandVal σ e).cell := by
  cases e <;> first | exact ofSymbol_deref σ _ | rfl

/-- What an inlined operator stands for: its primitive, called on the
operands. -/
theorem callPrimitive_operator {operator : Operator} {operands : List Cell}
    {fuel : Nat} (hacc : operator.accepts operands)
    (hev : SelfEvaluates ev)
    (h : EvalTo ev σ operands (operands.map (operandVal σ)))
    (hplace : ∀ s, operands.head? = some (.symbol s) → s ≠ itSymbol)
    (hsettled : Settled rt operator operands (operands.map (operandVal σ))) :
    (callPrimitive rt flags ev fuel operator.primitive σ operands >>=
        fun r => .value r.1.cell) =
      treeResult rt flags operator operands
        (operands.map (operandVal σ)) := by
  have hvalid : ∀ v ∈ operands.map (operandVal σ), v.deref σ = .value v.cell := by
    intro v hv
    obtain ⟨e, -, rfl⟩ := List.mem_map.mp hv
    exact operandVal_deref σ e
  have hpure : ∀ x : Outcome Error Cell, (x >>= fun c => .value c) = x := by
    intro x
    cases x <;> rfl
  cases operator with
  | add =>
      simp [callPrimitive, Operator.primitive, treeResult,
        arithmetikOp_eq h hvalid fun _ => .inl rfl, hpure]
  | subtract =>
      simp [callPrimitive, Operator.primitive, treeResult,
        arithmetikOp_eq h hvalid fun h => absurd h hacc, hpure]
  | multiply =>
      simp [callPrimitive, Operator.primitive, treeResult,
        arithmetikOp_eq h hvalid fun _ => .inr rfl, hpure]
  | divide =>
      have hne : operands = [] →
          ArithOp.divide = .add ∨ ArithOp.divide = .multiply := by
        rintro rfl
        simp [Operator.accepts] at hacc
      simp [callPrimitive, Operator.primitive, treeResult,
        arithmetikOp_eq h hvalid hne, hpure]
  | compare cop =>
      obtain ⟨a, b, rfl⟩ := List.length_eq_two.mp hacc
      have hc := compareOp_eq rt cop h (hvalid _ (by simp))
      cases cop <;>
        simp only [callPrimitive, Operator.primitive, hc, treeResult,
          Outcome.bind_assoc, Outcome.value_bind, Val.shared_cell, hpure] <;>
        rfl
  | inc | dec =>
      obtain ⟨s, params, rfl⟩ := hacc
      cases h with
      | cons hp hps =>
          simp only [callPrimitive, Operator.primitive, treeResult,
            List.map_cons, operandVal, Outcome.bind_assoc,
            incDecF_eq hev (hplace s rfl) hsettled.1 hps, Outcome.value_bind,
            Val.temp_cell, hpure]

end Tree

/-- `m` stands before the code between `c` and `c'`, with `ts` on its frame
`F`, which holds the variables as `σb` does. -/
structure Ready (m : Machine) (F ts : List Val) (c c' : Compiler)
    (σb : Interp) : Prop where
  fp : m.fp = 0
  stack : m.vmStack = F ++ ts
  before : m.Before (emitted c c')
  linked : Linked m.bytecode c'
  holds : FrameHolds F c.locals m.interp σb
  pool : LongPool c

section Code

variable {ctx : MachineContext} {m : Machine} {F ts ts' : List Val}
  {c c₁ c₂ : Compiler} {e : Cell} {es : List Cell} {σb : Interp} {w : Val}

theorem Ready.first (h : Ready m F ts c c₂ σb) (h₁ : Extends c c₁)
    (h₂ : Extends c₁ c₂) : Ready m F ts c c₁ σb where
  fp := h.fp
  stack := h.stack
  before := by
    have hb := h.before
    rw [h₁.emitted_trans h₂] at hb
    exact (Before.append hb ts).1
  linked := h.linked.of_extends h₂
  holds := h.holds
  pool := h.pool

theorem Ready.next (h : Ready m F ts c c₂ σb) (h₁ : Extends c c₁)
    (h₂ : Extends c₁ c₂) (hpool : LongPool c₁) (ts' : List Val) :
    Ready (m.goTo (m.ip + (emitted c c₁).length) (F ++ ts')) F ts' c₁ c₂
      σb where
  fp := h.fp
  stack := rfl
  before := by
    have hb := h.before
    rw [h₁.emitted_trans h₂] at hb
    exact (Before.append hb _).2
  linked := h.linked
  holds := h₁.locals_eq ▸ h.holds
  pool := hpool

theorem Ready.opcode {op : VmOpcode} (h : Ready m F ts c (c.emitOp op) σb) :
    m.Before [op.toByte] := by
  simpa [emitted_of_code_eq (emitOp_code c op)] using h.before

theorem emitOp_extends (c : Compiler) (op : VmOpcode) :
    Extends c (c.emitOp op) := (Extends.refl c).emitOp op

@[simp] theorem emitted_emitOp (c : Compiler) (op : VmOpcode) :
    emitted c (c.emitOp op) = [op.toByte] :=
  emitted_of_code_eq (emitOp_code c op)

theorem emitted_length_trans (h₁ : Extends c c₁) (h₂ : Extends c₁ c₂) :
    (emitted c c₂).length = (emitted c c₁).length + (emitted c₁ c₂).length := by
  rw [h₁.emitted_trans h₂, List.length_append]

/-- The code of an operand, and the state before what follows it. -/
theorem Ready.operand (h : Ready m F ts c c₂ σb)
    (he : isOperand ctx.compile e)
    (hc : compileExpr ctx.compile e false c = .value c₁)
    (h₂ : Extends c₁ c₂) :
    ∃ w, w.deref m.interp = .value (operandVal σb e).cell ∧
      Reaches (step ctx) m
        (m.goTo (m.ip + (emitted c c₁).length) (F ++ (ts ++ [w]))) ∧
      Ready (m.goTo (m.ip + (emitted c c₁).length) (F ++ (ts ++ [w]))) F
        (ts ++ [w]) c₁ c₂ σb := by
  have hext := compileExpr_extends hc
  have h1 := h.first hext h₂
  obtain ⟨w, hw, hr⟩ := yields_operand he hc h1.pool h1.holds
    h1.fp h1.linked h1.stack h1.before
  rw [List.append_assoc] at hr
  exact ⟨w, hw, hr, h.next hext h₂ (compileOperand_longPool he hc h.pool) _⟩

theorem compileOperands_ext {op : VmOpcode}
    (h : compileOperands ctx.compile op es c = .value c₁) : Extends c c₁ :=
  compileOperands_extends (smallExtends ctx.compile (sizeOf es + 1))
    (Nat.lt_succ_self _) spelled_true h

/-- The operands after the first fold over the value on top. -/
theorem yields_operands {op : ArithOp} (hev : SelfEvaluates ctx.ev)
    (hes : ∀ e ∈ es, isOperand ctx.compile e)
    (hc : compileOperands ctx.compile (arithOpcode op) es c = .value c₁)
    (h : Ready m F [w] c c₁ σb) {a : Cell} (hw : w.deref m.interp = .value a)
    (ha : es ≠ [] → isSelfEval a = true)
    (hfold : FoldSettled ctx.compile.runtime op a
      ((es.map (operandVal σb)).map Val.cell)) :
    Yields ctx m (m.ip + (emitted c c₁).length) F
      (combineAll ctx.compile.runtime op a
        ((es.map (operandVal σb)).map Val.cell)) := by
  induction es generalizing m c w a with
  | nil =>
      obtain rfl := Outcome.value.inj hc
      refine .value hw ?_
      rw [emitted_self, List.length_nil, Nat.add_zero, ← h.stack, goTo_self]
      exact .refl m
  | cons e es ih =>
      simp only [compileOperands, Outcome.bind_eq_value_iff] at hc
      obtain ⟨c', hc', hrest⟩ := hc
      have hop := emitOp_extends c' (arithOpcode op)
      have hext := compileOperands_ext hrest
      obtain ⟨w', hw', hr, hready⟩ := h.operand (hes e List.mem_cons_self) hc'
        (hop.trans hext)
      obtain ⟨hb, hfold⟩ := hfold
      have hopcode := (hready.first hop hext).opcode
      have hstack : (m.goTo (m.ip + (emitted c c').length)
          (F ++ ([w] ++ [w']))).vmStack = F ++ [w, w'] := rfl
      have hbin := yields_binary hev (ha (List.cons_ne_nil e es)) hb hopcode
        hstack hw hw'
      refine .of_reaches hr (Yields.bind hbin.yields fun d u hd hu => ?_)
      have hd : isSelfEval d = true := by
        obtain ⟨-, ⟨_, _, -, rfl⟩ | ⟨-, _, rfl⟩⟩ := combine_int _ _ hd <;> rfl
      have hnext := hready.next hop hext hready.pool [u]
      have hlen : m.ip + (emitted c c₁).length =
          m.ip + (emitted c c').length + 1 +
            (emitted (c'.emitOp (arithOpcode op)) c₁).length := by
        rw [emitted_length_trans (compileExpr_extends hc') (hop.trans hext),
          emitted_length_trans hop hext, emitted_emitOp]
        simp only [List.length_singleton]
        omega
      rw [hlen]
      have hrec := ih (fun e' he' => hes e' (List.mem_cons_of_mem _ he')) hrest
        hnext hu (fun _ => hd) (hfold d ‹_›)
      simpa only [emitted_emitOp, List.length_singleton, goTo_ip, goTo_goTo]
        using hrec

/-- A first operand and the fold over it. -/
theorem yields_fold {op : ArithOp} (hev : SelfEvaluates ctx.ev)
    (he : isOperand ctx.compile e) (hes : ∀ e ∈ es, isOperand ctx.compile e)
    (hc : compileExpr ctx.compile e false c = .value c₁)
    (hc₂ : compileOperands ctx.compile (arithOpcode op) es c₁ = .value c₂)
    (h : Ready m F [] c c₂ σb)
    (ha : es ≠ [] → isSelfEval (operandVal σb e).cell = true)
    (hfold : FoldSettled ctx.compile.runtime op (operandVal σb e).cell
      ((es.map (operandVal σb)).map Val.cell)) :
    Yields ctx m (m.ip + (emitted c c₂).length) F
      (combineAll ctx.compile.runtime op (operandVal σb e).cell
        ((es.map (operandVal σb)).map Val.cell)) := by
  have hext := compileOperands_ext hc₂
  obtain ⟨w, hw, hr, hready⟩ := h.operand he hc hext
  refine .of_reaches hr ?_
  have hrest := yields_operands hev hes hc₂ hready hw ha hfold
  rw [emitted_length_trans (compileExpr_extends hc) hext, ← Nat.add_assoc]
  exact hrest

/-- An operand and an opcode that works on it alone. -/
theorem yields_unary {opcode : VmOpcode} {x : Outcome Error Cell}
    (hop : ∀ (m : Machine) vs v, m.Before [opcode.toByte] →
      m.vmStack = vs ++ [v] →
      v.deref m.interp = .value (operandVal σb e).cell →
      YieldsNew ctx m (m.ip + 1) vs x)
    (he : isOperand ctx.compile e)
    (hc : compileExpr ctx.compile e false c = .value c₁)
    (h : Ready m F [] c (c₁.emitOp opcode) σb) :
    YieldsNew ctx m (m.ip + (emitted c (c₁.emitOp opcode)).length) F x := by
  have hext := emitOp_extends c₁ opcode
  obtain ⟨w, hw, hr, hready⟩ := h.operand he hc hext
  refine .of_reaches hr ?_
  have hlast := hop _ F w hready.opcode rfl hw
  rw [emitted_length_trans (compileExpr_extends hc) hext, emitted_emitOp,
    ← Nat.add_assoc]
  exact hlast

/-- Two operands and the opcode that works on both. -/
theorem Ready.operands {e' : Cell} {opcode : VmOpcode}
    (h : Ready m F [] c (c₂.emitOp opcode) σb)
    (he : isOperand ctx.compile e) (he' : isOperand ctx.compile e')
    (hc : compileExpr ctx.compile e false c = .value c₁)
    (hc₂ : compileExpr ctx.compile e' false c₁ = .value c₂) :
    ∃ m' w w', Reaches (step ctx) m m' ∧
      m' = m.goTo m'.ip (F ++ [w, w']) ∧
      m.ip + (emitted c (c₂.emitOp opcode)).length = m'.ip + 1 ∧
      m'.Before [opcode.toByte] ∧
      w.deref m.interp = .value (operandVal σb e).cell ∧
      w'.deref m.interp = .value (operandVal σb e').cell := by
  have hext := compileExpr_extends hc₂
  have hop := emitOp_extends c₂ opcode
  obtain ⟨w, hw, hr, hready⟩ := h.operand he hc (hext.trans hop)
  obtain ⟨w', hw', hr', hready'⟩ := hready.operand he' hc₂ hop
  refine ⟨_, w, w', hr.trans hr', rfl, ?_, hready'.opcode, hw, hw'⟩
  rw [emitted_length_trans (compileExpr_extends hc) (hext.trans hop),
    emitted_length_trans hext hop, emitted_emitOp]
  simp only [goTo_ip, List.length_singleton]
  omega

/-- What `compileExpr` makes of an inlined operator. -/
def compileOperator (ctx : CompileContext) :
    Operator → List Cell → Compiler → Compilation Compiler
  | .add => compileAdd ctx
  | .subtract => compileSubtract ctx
  | .multiply => compileMultiply ctx
  | .divide => compileDivide ctx
  | .compare op => compileCompare ctx (comparisonOpcode op)
  | .inc => compileInc ctx .add1 .add
  | .dec => compileInc ctx .sub1 .sub

theorem compileExpr_operator (ctx : CompileContext) (op : Operator)
    (es : List Cell) (isTail : Bool) (c : Compiler) :
    compileExpr ctx (.expression (.symbol ⟨"MAIN", op.name⟩ :: es)) isTail c =
      compileOperator ctx op es c := by
  rw [compileExpr]
  rcases op with _ | _ | _ | _ | (_ | _ | _ | _ | _ | _) | _ | _ <;>
    simp [Operator.name, compareOpcode, compileOperator, comparisonOpcode]

theorem isLong_iff {n : Word} : isLong n e = true ↔ e = .long n := by
  cases e <;> simp [isLong]

theorem combineAll_one (rt : Runtime) (op : ArithOp) (a b : Cell) :
    combineAll rt op a [b] = combine rt op a b := by
  simp only [combineAll]
  cases combine rt op a b <;> rfl

/-- Operands that are folded one by one. -/
theorem yields_nary (op : ArithOp) (hev : SelfEvaluates ctx.ev)
    (hes : ∀ e' ∈ e :: es, isOperand ctx.compile e')
    (hc : (compileExpr ctx.compile e false c >>= fun c =>
      compileOperands ctx.compile (arithOpcode op) es c) = .value c₁)
    (h : Ready m F [] c c₁ σb) (hop : es = [] → op ≠ .subtract)
    (hs : FoldedSettled ctx.compile.runtime op
      ((e :: es).map (operandVal σb))) :
    Yields ctx m (m.ip + (emitted c c₁).length) F
      (machineFold ctx.compile.runtime op
        (((e :: es).map (operandVal σb)).map Val.cell)) := by
  obtain ⟨c', hc', hc⟩ := Outcome.bind_eq_value_iff.mp hc
  have he := hes e List.mem_cons_self
  have hes : ∀ e' ∈ es, isOperand ctx.compile e' :=
    fun e' he' => hes e' (List.mem_cons_of_mem _ he')
  match es with
  | [] =>
      have hy := yields_fold hev he hes hc' hc h (fun h => absurd rfl h) trivial
      simpa [machineFold, hop rfl, combineAll] using hy
  | e' :: es => exact yields_fold hev he hes hc' hc h (fun _ => hs.1) hs.2

theorem yields_add (hev : SelfEvaluates ctx.ev)
    (hes : ∀ e ∈ es, isOperand ctx.compile e)
    (hc : compileAdd ctx.compile es c = .value c₁)
    (h : Ready m F [] c c₁ σb)
    (hs : Settled ctx.compile.runtime .add es (es.map (operandVal σb))) :
    Yields ctx m (m.ip + (emitted c c₁).length) F
      (machineResult ctx.compile.runtime .add es
        (es.map (operandVal σb))) := by
  match es with
  | [] =>
      rw [compileAdd] at hc
      obtain rfl := Outcome.value.inj hc
      have hstack := h.stack
      rw [List.append_nil] at hstack
      rw [emitted_emitOp]
      refine .value (w := Val.temp (.long 0)) rfl ?_
      rw [← hstack]
      exact reaches_const0 h.opcode
  | [e] =>
      rw [compileAdd] at hc
      · exact yields_nary .add hev hes hc h (fun _ => by decide) hs
      · simp
  | [e, e'] =>
      have he := hes e (by simp)
      have he' := hes e' (by simp)
      rw [compileAdd] at hc
      split at hc
      · rename_i hone
        obtain rfl := isLong_iff.mp hone
        obtain ⟨c', hc', hc⟩ := Outcome.bind_eq_value_iff.mp hc
        obtain rfl := Outcome.value.inj hc
        have hinc : isIncrement [e, .long 1] = false := by
          simp [isIncrement, isLong]
        simp only [Settled, machineResult, hinc, Bool.false_eq_true,
          if_false] at hs ⊢
        refine YieldsNew.yields ?_
        have hy := yields_unary (fun m vs v hb hvs hv =>
          yields_add1 hev hs.1 hb hvs hv) he hc' h
        simpa [machineFold, combineAll_one, operandVal] using hy
      · split at hc
        · rename_i hne hone
          obtain rfl := isLong_iff.mp hone
          obtain ⟨c', hc', hc⟩ := Outcome.bind_eq_value_iff.mp hc
          obtain rfl := Outcome.value.inj hc
          have hinc : isIncrement [.long 1, e'] = true := by
            simp only [isIncrement, hone, Bool.eq_false_iff.mpr hne]
            rfl
          simp only [Settled, machineResult, hinc, if_true] at hs ⊢
          refine YieldsNew.yields ?_
          have hself : isSelfEval (operandVal σb e').cell = true :=
            hs _ (by simp)
          exact yields_unary (fun m vs v hb hvs hv =>
            yields_add1 hev hself hb hvs hv) he' hc' h
        · rename_i hne hne'
          have hinc : isIncrement [e, e'] = false := by
            simp only [isIncrement, Bool.eq_false_iff.mpr hne']
            rfl
          simp only [Settled, machineResult, hinc, Bool.false_eq_true,
            if_false] at hs ⊢
          exact yields_nary .add hev hes hc h (fun _ => by decide) hs
  | e :: e' :: e'' :: es =>
      rw [compileAdd] at hc
      · have hinc : isIncrement (e :: e' :: e'' :: es) = false := rfl
        simp only [Settled, machineResult, hinc, Bool.false_eq_true,
          if_false] at hs ⊢
        exact yields_nary .add hev hes hc h (fun _ => by decide) hs
      · simp

theorem yields_subtract (hev : SelfEvaluates ctx.ev)
    (hes : ∀ e ∈ es, isOperand ctx.compile e)
    (hc : compileSubtract ctx.compile es c = .value c₁)
    (h : Ready m F [] c c₁ σb)
    (hs : FoldedSettled ctx.compile.runtime .subtract
      (es.map (operandVal σb))) :
    Yields ctx m (m.ip + (emitted c c₁).length) F
      (machineFold ctx.compile.runtime .subtract
        ((es.map (operandVal σb)).map Val.cell)) := by
  match es with
  | [] => simp [compileSubtract] at hc
  | [e] =>
      rw [compileSubtract] at hc
      obtain ⟨c', hc', hc⟩ := Outcome.bind_eq_value_iff.mp hc
      obtain rfl := Outcome.value.inj hc
      exact (yields_unary (fun m vs v hb hvs hv =>
        yields_neg hev (hs rfl) hb hvs hv) (hes e (by simp)) hc' h).yields
  | [e, e'] =>
      have he := hes e (by simp)
      rw [compileSubtract] at hc
      split at hc
      · rename_i hone
        obtain rfl := isLong_iff.mp hone
        obtain ⟨c', hc', hc⟩ := Outcome.bind_eq_value_iff.mp hc
        obtain rfl := Outcome.value.inj hc
        have hy := yields_unary (fun m vs v hb hvs hv =>
          yields_sub1 hev hs.1 hb hvs hv) he hc' h
        simpa [machineFold, combineAll_one, operandVal] using hy.yields
      · split at hc
        · rename_i htwo
          obtain rfl := isLong_iff.mp htwo
          obtain ⟨c', hc', hc⟩ := Outcome.bind_eq_value_iff.mp hc
          obtain rfl := Outcome.value.inj hc
          have hy := yields_unary (fun m vs v hb hvs hv =>
            yields_sub2 hev hs.1 hb hvs hv) he hc' h
          simpa [machineFold, combineAll_one, operandVal] using hy.yields
        · exact yields_nary .subtract hev hes hc h
            (fun h => absurd h (List.cons_ne_nil _ _)) hs
  | e :: e' :: e'' :: es =>
      rw [compileSubtract] at hc
      · exact yields_nary .subtract hev hes hc h
          (fun h => absurd h (List.cons_ne_nil _ _)) hs
      · simp
      · simp

theorem yields_multiply (hev : SelfEvaluates ctx.ev)
    (hes : ∀ e ∈ es, isOperand ctx.compile e)
    (hc : compileMultiply ctx.compile es c = .value c₁)
    (h : Ready m F [] c c₁ σb)
    (hs : FoldedSettled ctx.compile.runtime .multiply
      (es.map (operandVal σb))) :
    Yields ctx m (m.ip + (emitted c c₁).length) F
      (machineFold ctx.compile.runtime .multiply
        ((es.map (operandVal σb)).map Val.cell)) := by
  cases es with
  | nil =>
      rw [compileMultiply] at hc
      obtain rfl := Outcome.value.inj hc
      have hstack := h.stack
      rw [List.append_nil] at hstack
      rw [emitted_emitOp]
      refine .value (w := Val.temp (.long 1)) rfl ?_
      rw [← hstack]
      exact reaches_const1 h.opcode
  | cons e es =>
      rw [compileMultiply] at hc
      exact yields_nary .multiply hev hes hc h (fun _ => by decide) hs

theorem yields_divide (hev : SelfEvaluates ctx.ev)
    (hes : ∀ e ∈ es, isOperand ctx.compile e)
    (hc : compileDivide ctx.compile es c = .value c₁)
    (h : Ready m F [] c c₁ σb)
    (hs : FoldedSettled ctx.compile.runtime .divide
      (es.map (operandVal σb))) :
    Yields ctx m (m.ip + (emitted c c₁).length) F
      (machineFold ctx.compile.runtime .divide
        ((es.map (operandVal σb)).map Val.cell)) := by
  match es with
  | [] | [e] => simp [compileDivide] at hc
  | e :: e' :: es =>
      rw [compileDivide] at hc
      exact yields_nary .divide hev hes hc h (fun _ => by decide) hs

theorem yields_compare {cop : CompareOp}
    (hes : ∀ e ∈ es, isOperand ctx.compile e)
    (hc : compileCompare ctx.compile (comparisonOpcode cop) es c = .value c₁)
    (h : Ready m F [] c c₁ σb) :
    Yields ctx m (m.ip + (emitted c c₁).length) F
      (machineCompare ctx.compile.runtime cop
        ((es.map (operandVal σb)).map Val.cell)) := by
  match es with
  | [] | [e] | e :: e' :: e'' :: es => simp [compileCompare] at hc
  | [e, e'] =>
      rw [compileCompare] at hc
      obtain ⟨c', hc', hc⟩ := Outcome.bind_eq_value_iff.mp hc
      obtain ⟨c'', hc'', hc⟩ := Outcome.bind_eq_value_iff.mp hc
      obtain rfl := Outcome.value.inj hc
      obtain ⟨m', w, w', hr, hm', hip, hb, hw, hw'⟩ :=
        h.operands (hes e (by simp)) (hes e' (by simp)) hc' hc''
      rw [hip]
      rw [hm'] at hr hb
      exact .of_reaches hr (yields_comparison hb rfl hw hw')

/-- The load of the place of an `inc` or `dec` is that of an operand. -/
theorem compileInc_eq {op1 op : VmOpcode} {s : Symbol} {es : List Cell}
    (hs : isOperand ctx.compile (.symbol s)) :
    compileInc ctx.compile op1 op (.symbol s :: es) c =
      (compileExpr ctx.compile (.symbol s) false c >>= fun c' =>
        match es with
        | [] => .value ((c'.emitOp op1).emitAssign (c.findLocal s) s)
        | delta :: _ => compileExpr ctx.compile delta false c' >>= fun c' =>
            .value ((c'.emitOp op).emitAssign (c.findLocal s) s)) := by
  have hself : ¬ (ctx.compile.selfSymbol = some s ∨ s.name = "self") := by
    rintro (h | h)
    · exact hs.2.1 h
    · exact hs.1 h
  cases es <;> cases hfind : c.findLocal s <;>
    simp [compileInc, incTarget, compileExpr, compileSymbol, hfind, hself]

/-- The state an assignment leaves: a variable in a slot is not in it. -/
def assigned (σ : Interp) (slot : Option Nat) (s : Symbol) (d : Cell) :
    Interp :=
  match slot with
  | some _ => σ
  | none => σ.assign s d

/-- The end of a lambda whose last value is assigned. -/
theorem endsIn_assign {slot : Option Nat} {s : Symbol} {d : Cell}
    (h : Ready m F [Val.temp d] c ((c.emitAssign slot s).emitOp .ret) σb)
    (hslot : ∀ k, slot = some k → k < 65536 ∧ k < F.length)
    (hframes : m.frames = []) :
    EndsIn (step ctx) m (.value (d, assigned m.interp slot s d)) := by
  have hpush : F ++ [Val.temp d, Val.temp d] =
      (F ++ [Val.temp d]) ++ [Val.temp d] := by simp
  cases slot with
  | some k =>
      obtain ⟨hk, hlen⟩ := hslot k rfl
      have hcode : emitted c ((c.emitAssign (some k) s).emitOp .ret) =
          [VmOpcode.dup.toByte] ++
            (storeLocalBytes k ++ [VmOpcode.ret.toByte]) := by
        apply emitted_of_code_eq
        simp [emitAssign]
      have hb := h.before
      rw [hcode] at hb
      have hdup := Before.append hb (F ++ [Val.temp d, Val.temp d])
      have hstore := Before.append hdup.2 (F.set k (Val.temp d) ++ [Val.temp d])
      refine (reaches_dup hdup.1 h.stack).endsIn ?_
      refine (reaches_storeLocal hstore.1 hk hpush).endsIn ?_
      have hset : (F ++ [Val.temp d]).set
          ((m.goTo (m.ip + [VmOpcode.dup.toByte].length)
            (F ++ [Val.temp d, Val.temp d])).fp + k) (Val.temp d) =
          F.set k (Val.temp d) ++ [Val.temp d] := by
        rw [goTo_fp, h.fp, Nat.zero_add, List.set_append_left _ _ hlen]
      rw [hset]
      exact endsIn_ret hstore.2 rfl rfl hframes
  | none =>
      have hcode : emitted c ((c.emitAssign none s).emitOp .ret) =
          [VmOpcode.dup.toByte] ++ ((VmOpcode.storeGlobal.toByte ::
            operand ((c.emitOp .dup).addSymbol s).1) ++
              [VmOpcode.ret.toByte]) := by
        apply emitted_of_code_eq
        simp [emitAssign, (addSymbol_eq (c.emitOp .dup) s).1]
      have hb := h.before
      rw [hcode] at hb
      have hdup := Before.append hb (F ++ [Val.temp d, Val.temp d])
      have hstore := Before.append hdup.2 (F ++ [Val.temp d])
      obtain ⟨hs, hi⟩ := h.linked.symbol (s := s)
        (addSymbol_eq (c.emitOp .dup) s).2
      refine (reaches_dup hdup.1 h.stack).endsIn ?_
      exact (reaches_storeGlobal hstore.1 hs hi hpush rfl).endsIn
        (endsIn_ret hstore.2 rfl rfl hframes)

theorem emitAssign_ret_extends (c : Compiler) (slot : Option Nat)
    (s : Symbol) : Extends c ((c.emitAssign slot s).emitOp .ret) :=
  ((Extends.refl c).emitAssign slot s trivial).emitOp .ret

/-- The slot of a variable in scope lies in the frame. -/
theorem FrameHolds.slot_lt {σ : Interp} {locals : List (Option Symbol)}
    (h : FrameHolds F locals σ σb) {s : Symbol} {k : Nat}
    (hk : findLocalFrom s 0 locals = some k) : k < 65536 ∧ k < F.length := by
  obtain ⟨hlt, v, hv, -⟩ := h.slot s k hk
  exact ⟨hlt, (List.getElem?_eq_some_iff.mp hv).1⟩

theorem endsIn_incDec {op1 : VmOpcode} {op : ArithOp} {s : Symbol}
    (hev : SelfEvaluates ctx.ev)
    (hop1 : ∀ (m : Machine) vs v a, isSelfEval a = true →
      m.Before [op1.toByte] → m.vmStack = vs ++ [v] →
      v.deref m.interp = .value a →
      YieldsNew ctx m (m.ip + 1) vs
        (combine ctx.compile.runtime op a (.long 1)))
    (hes : ∀ e ∈ .symbol s :: es, isOperand ctx.compile e)
    (hc : compileInc ctx.compile op1 (arithOpcode op) (.symbol s :: es) c =
      .value c₁)
    (h : Ready m F [] c (c₁.emitOp .ret) σb) (hframes : m.frames = [])
    (hplace : isSelfEval (operandVal σb (.symbol s)).cell = true)
    (hdelta : isNumber (operandVal σb (.symbol s)).cell = true →
      isSelfEval (deltaOf (es.map (operandVal σb))) = true) :
    EndsIn (step ctx) m
      (machineIncDec ctx.compile.runtime op
          ((.symbol s :: es).map (operandVal σb)) >>=
        fun d => .value (d, assigned m.interp (c.findLocal s) s d)) := by
  have hs := hes (.symbol s) List.mem_cons_self
  rw [compileInc_eq hs] at hc
  obtain ⟨c', hc', hc⟩ := Outcome.bind_eq_value_iff.mp hc
  have hslot : ∀ k, c.findLocal s = some k → k < 65536 ∧ k < F.length :=
    fun k hk => h.holds.slot_lt hk
  cases es with
  | nil =>
      obtain rfl := Outcome.value.inj hc
      have hop := emitOp_extends c' op1
      have hext := emitAssign_ret_extends (c'.emitOp op1) (c.findLocal s) s
      have hall := (compileExpr_extends hc').trans hop
      have hy := yields_unary (fun m vs v => hop1 m vs v _ hplace) hs hc'
        (h.first hall hext)
      refine hy.endsIn fun d => ?_
      have hpool := compileOperand_longPool hs hc' h.pool
      exact endsIn_assign (h.next hall hext hpool [Val.temp d]) hslot
        hframes
  | cons delta es =>
      have hd := hes delta (by simp)
      obtain ⟨c'', hc'', hc⟩ := Outcome.bind_eq_value_iff.mp hc
      obtain rfl := Outcome.value.inj hc
      have hop := emitOp_extends c'' (arithOpcode op)
      have hext := emitAssign_ret_extends (c''.emitOp (arithOpcode op))
        (c.findLocal s) s
      have hall := ((compileExpr_extends hc').trans
        (compileExpr_extends hc'')).trans hop
      obtain ⟨m', w, w', hr, hm', hip, hb, hw, hw'⟩ :=
        (h.first hall hext).operands hs hd hc' hc''
      rw [hm'] at hr hb
      have hy := YieldsNew.of_reaches hr
        (yields_binary hev hplace hdelta hb rfl hw hw')
      refine hy.endsIn fun d => ?_
      have hpool := compileOperand_longPool hd hc''
        (compileOperand_longPool hs hc' h.pool)
      have hnext := h.next hall hext hpool [Val.temp d]
      rw [hip] at hnext
      exact endsIn_assign hnext hslot hframes

/-- The place of an `inc` or `dec` is a variable. -/
theorem compileInc_place {op1 op : VmOpcode}
    (hes : ∀ e ∈ es, isOperand ctx.compile e)
    (hc : compileInc ctx.compile op1 op es c = .value c₁) :
    ∃ s params, es = .symbol s :: params := by
  match es with
  | [] => simp [compileInc] at hc
  | e :: es =>
      have he := hes e List.mem_cons_self
      cases e <;> simp only [isOperand] at he
      case symbol s => exact ⟨s, es, rfl⟩
      case long n => cases es <;> simp [compileInc, incTarget] at hc

/-- The compiler takes only operand lists that `accepts` describes. -/
theorem accepts_of_compileOperator {op : Operator}
    (hes : ∀ e ∈ es, isOperand ctx.compile e)
    (hc : compileOperator ctx.compile op es c = .value c₁) :
    op.accepts es := by
  cases op with
  | add | multiply => trivial
  | subtract =>
      rintro rfl
      simp [compileOperator, compileSubtract] at hc
  | divide =>
      match es with
      | [] | [e] => simp [compileOperator, compileDivide] at hc
      | e :: e' :: es => simp [Operator.accepts]
  | compare cop =>
      match es with
      | [] | [e] | e :: e' :: e'' :: es =>
          simp [compileOperator, compileCompare] at hc
      | [e, e'] => rfl
  | inc | dec => exact compileInc_place hes hc

/-- A lambda whose body is an inlined operator returns what the machine makes
of the operands. -/
theorem endsIn_operator {op : Operator} (hev : SelfEvaluates ctx.ev)
    (hes : ∀ e ∈ es, isOperand ctx.compile e)
    (hc : compileOperator ctx.compile op es c = .value c₁)
    (h : Ready m F [] c (c₁.emitOp .ret) σb) (hframes : m.frames = [])
    (hs : Settled ctx.compile.runtime op es (es.map (operandVal σb))) :
    ∃ f : Cell → Interp, EndsIn (step ctx) m
      (machineResult ctx.compile.runtime op es (es.map (operandVal σb)) >>=
        fun d => .value (d, f d)) := by
  have hext : Extends c c₁ := by
    rw [← compileExpr_operator ctx.compile op es false c] at hc
    exact compileExpr_extends hc
  have hret := emitOp_extends c₁ .ret
  have hfirst := h.first hext hret
  have hpure : ∀ {x}, Yields ctx m (m.ip + (emitted c c₁).length) F x →
      ∃ f : Cell → Interp, EndsIn (step ctx) m
        (x >>= fun d => .value (d, f d)) := by
    intro x hy
    refine ⟨fun _ => m.interp, hy.endsIn fun d w hw => ?_⟩
    have hb := h.before
    rw [hext.emitted_trans hret, emitted_emitOp] at hb
    exact endsIn_ret (Before.append hb _).2 rfl hw hframes
  cases op with
  | add => exact hpure (yields_add hev hes hc hfirst hs)
  | subtract => exact hpure (yields_subtract hev hes hc hfirst hs)
  | multiply => exact hpure (yields_multiply hev hes hc hfirst hs)
  | divide => exact hpure (yields_divide hev hes hc hfirst hs)
  | compare cop => exact hpure (yields_compare hes hc hfirst)
  | inc =>
      obtain ⟨s, params, rfl⟩ := compileInc_place hes hc
      exact ⟨_, endsIn_incDec hev (fun m vs v a => yields_add1 hev) hes hc h
        hframes hs.1 hs.2⟩
  | dec =>
      obtain ⟨s, params, rfl⟩ := compileInc_place hes hc
      exact ⟨_, endsIn_incDec hev (fun m vs v a => yields_sub1 hev) hes hc h
        hframes hs.1 hs.2⟩

end Code

/-- The frame of a call holds the parameters as the tree-walker binds them. -/
theorem frameHolds_start {params : List Symbol} {args : List Cell}
    {bc : Bytecode} (hlen : params.length ≤ maxLocals) (hbc : params.length ≤ bc.numLocals)
    (σ : Interp) :
    FrameHolds (frameOf bc (args.map Val.temp)) (params.map some) σ
      (bindArgs σ params args) where
  slot s k hk := by
    have hlt := (findLocalFrom_range hk).2
    have hmax : NewLispNeo.maxLocals = 256 := rfl
    simp only [List.length_map, Nat.zero_add] at hlt
    refine ⟨by omega, ?_⟩
    rw [bindArgs_contents hk σ args]
    exact frameOf_temp (by omega) σ
  global s hs := (bindArgs_contents_of_not_mem
    (findLocalFrom_params_none.mp hs) σ args).symm

/-- What the run of a lambda on `args` ends in, its final state left out. -/
def Returns (ctx : MachineContext) (bc : Bytecode) (self : Cell) (σ : Interp)
    (args : List Cell) (x : Outcome Error Cell) : Prop :=
  ∃ o, EndsIn (step ctx) (start bc self (args.map Val.temp) σ) o ∧
    (o >>= fun r => .value r.1) = x

theorem Returns.unique {ctx : MachineContext} {bc : Bytecode} {self : Cell}
    {σ : Interp} {args : List Cell} {x y : Outcome Error Cell}
    (hx : Returns ctx bc self σ args x) (hy : Returns ctx bc self σ args y) :
    x = y := by
  obtain ⟨o, ho, rfl⟩ := hx
  obtain ⟨o', ho', rfl⟩ := hy
  rw [ho.unique ho']

section Lambda

variable {ctx : MachineContext} {op : Operator} {params : List Symbol}
  {operands args : List Cell} {bc : Bytecode} {self : Cell} {σ : Interp}

/-- A lambda around an inlined operator returns what the machine makes of the
operands. -/
theorem returns_operator (self : Cell) (hev : SelfEvaluates ctx.ev)
    (hbc : compileLambda ctx.compile (op.lambda params operands) = .value bc)
    (hcomma : ∀ s ∈ params, s.name ≠ ",")
    (hoperands : ∀ e ∈ operands, isOperand ctx.compile e)
    (hconstants : bc.constants.length ≤ 65536)
    (hsymbols : bc.symbols.length ≤ 65536)
    (hs : Settled ctx.compile.runtime op operands
      (operands.map (operandVal (bindArgs σ params args)))) :
    op.accepts operands ∧ Returns ctx bc self σ args
      (machineResult ctx.compile.runtime op operands
        (operands.map (operandVal (bindArgs σ params args)))) := by
  obtain ⟨c, hc, hlen, rfl⟩ := compileLambda_eq hbc
  rw [compileBody, compileExpr_operator] at hc
  have hacc := accepts_of_compileOperator hoperands hc
  have hext : Extends (bodyCompiler params) c := by
    rw [← compileExpr_operator ctx.compile op operands false] at hc
    exact compileExpr_extends hc
  rw [slotSymbols_eq_self hcomma] at hlen
  have hlocals : params.length ≤ c.maxLocals := by
    have h := hext.maxLocals
    simpa [bodyCompiler, slotSymbols_eq_self hcomma] using h
  obtain ⟨f, hend⟩ := endsIn_operator (F := frameOf _ (args.map Val.temp))
    (m := start _ self (args.map Val.temp) σ) hev hoperands hc
    { fp := rfl
      stack := (List.append_nil _).symm
      before := by
        have hcode := (hext.emitOp .ret).code_eq
        rw [show (bodyCompiler params).code = [] from rfl,
          List.nil_append] at hcode
        rw [← hcode]
        exact CodeAt.self _
      linked := ⟨List.prefix_rfl, List.prefix_rfl, hconstants, hsymbols⟩
      holds := by
        rw [show (bodyCompiler params).locals = params.map some by
          simp [bodyCompiler, slotSymbols_eq_self hcomma]]
        exact frameHolds_start hlen hlocals σ
      pool := by simp [LongPool, bodyCompiler] } rfl hs
  refine ⟨hacc, _, hend, ?_⟩
  rw [Outcome.bind_assoc]
  cases machineResult ctx.compile.runtime op operands _ <;> rfl

/-- The emitted code of an inlined operator gives the result of its primitive on
the same operands when the two agree; and only then, if it is a comparison or
its operands evaluate to themselves. -/
theorem operator_returns_iff {fuel : Nat} {vm : Bool}
    (hctx : ctx.ev = evaluateExpression ctx.compile vm (fuel + 1))
    (hbc : compileLambda ctx.compile (op.lambda params operands) = .value bc)
    (hcomma : ∀ s ∈ params, s.name ≠ ",")
    (hoperands : ∀ e ∈ operands, isOperand ctx.compile e)
    (hconstants : bc.constants.length ≤ 65536)
    (hsymbols : bc.symbols.length ≤ 65536) :
    let σb := bindArgs σ params args
    let vs := operands.map (operandVal σb)
    let primitive := callPrimitive ctx.compile.runtime ctx.compile.flags ctx.ev
      ctx.fuel op.primitive σb operands >>= fun r => .value r.1.cell
    (OperatorAgrees ctx.compile.runtime ctx.compile.flags op operands vs →
      Returns ctx bc self σ args primitive) ∧
    (((∀ cop, op ≠ .compare cop) → ∀ v ∈ vs, isSelfEval v.cell = true) →
      Returns ctx bc self σ args primitive →
      OperatorAgrees ctx.compile.runtime ctx.compile.flags op operands vs) := by
  intro σb vs primitive
  have hself : SelfEvaluates ctx.ev :=
    hctx ▸ evaluateExpression_selfEvaluates ctx.compile vm fuel
  have heval : EvalTo ctx.ev σb operands vs :=
    hctx ▸ evalTo_operands hoperands
  have hplace : ∀ s, operands.head? = some (.symbol s) → s ≠ itSymbol := by
    intro s hs
    exact (hoperands _ (List.mem_of_mem_head? hs)).2.2
  have hacc : op.accepts operands := by
    obtain ⟨c, hc, -, -⟩ := compileLambda_eq hbc
    rw [compileBody, compileExpr_operator] at hc
    exact accepts_of_compileOperator hoperands hc
  have hprimitive : Settled ctx.compile.runtime op operands vs →
      primitive = treeResult ctx.compile.runtime ctx.compile.flags op operands
        vs := fun hs =>
    callPrimitive_operator hacc hself heval hplace hs
  constructor
  · intro hagree
    have hs := OperatorAgrees.settled hacc hagree
    rw [hprimitive hs, treeResult_eq hacc hagree]
    exact (returns_operator self hself hbc hcomma hoperands hconstants hsymbols
      hs).2
  · intro hvs hret
    have hs := settled_of_selfEval ctx.compile.runtime op operands hvs
    have hmachine := (returns_operator self hself hbc hcomma
      hoperands hconstants hsymbols hs).2
    refine operatorAgrees_of_eq hacc hvs ?_
    rw [← hprimitive hs]
    exact hret.unique hmachine

end Lambda

/-- `(lambda (x y) (+ x y))`. -/
def sumBytecode : Bytecode where
  code := [29, 30, 21, 14]
  constants := []
  symbols := []
  numParams := 2
  numLocals := 2

theorem operator_returns_sum :
    Returns (startupMachine 1) sumBytecode .nil startup [.long 2, .float Binary64.zero]
      (callPrimitive exactRuntime startupFlags (startupMachine 1).ev 1 .add
        (bindArgs startup [mainSymbol "x", mainSymbol "y"]
          [.long 2, .float Binary64.zero])
        [.symbol (mainSymbol "x"), .symbol (mainSymbol "y")] >>=
          fun r => .value r.1.cell) := by
  refine (@operator_returns_iff (startupMachine 1) .add
    [mainSymbol "x", mainSymbol "y"]
    [.symbol (mainSymbol "x"), .symbol (mainSymbol "y")]
    [.long 2, .float Binary64.zero] sumBytecode .nil startup 0 true rfl rfl
    (by decide) ?_ (by decide) (by decide)).1 ?_
  · simp [isOperand, mainSymbol, itSymbol, startupMachine, startupContext]
  · exact ⟨rfl, rfl, fun _ => rfl, fun _ => rfl, fun _ _ => trivial⟩

/-- `(lambda (x) (inc x))`. -/
def incBytecode : Bytecode where
  code := [29, 42, 5, 33, 14]
  constants := []
  symbols := []
  numParams := 1
  numLocals := 1

/-- `(inc x)` where `x` is the integer 1: the primitive returns a float. -/
theorem inc_long_returns_long :
    compileLambda startupContext
        (Operator.inc.lambda [mainSymbol "x"] [.symbol (mainSymbol "x")]) =
      .value incBytecode ∧
    ¬ Returns (startupMachine 1) incBytecode .nil startup [.long 1]
      (callPrimitive exactRuntime startupFlags (startupMachine 1).ev 1
        .incrementF (bindArgs startup [mainSymbol "x"] [.long 1])
        [.symbol (mainSymbol "x")] >>= fun r => .value r.1.cell) := by
  refine ⟨rfl, fun h => ?_⟩
  have hlong : Returns (startupMachine 1) incBytecode .nil startup [.long 1]
      (.value (.long 2)) :=
    ⟨.value (.long 2, startup), ⟨5, fun n => rfl⟩, rfl⟩
  cases h.unique hlong

end NewLispNeo
