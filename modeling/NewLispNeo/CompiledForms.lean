/-
The code of every expression of the compiled fragment against the tree-walker.
-/
import NewLispNeo.CountedLoops
import NewLispNeo.Forms

namespace NewLispNeo

open StepRun Compiler

namespace Run

variable {R : Run} {sc : Scope} {F F' : List Val} {σ σ' : Interp} {p : Nat} {v : Val}
  {T : List Val} {c c' : Compiler} {ev : Evaluator} {h : Symbol} {args : List Cell}
  {isTail : Bool} {fuel : Nat} {prim : Primitive} {follows : Scope → Interp → Cell → Prop}
  {leavesOf : Demand → Interp → Cell → Prop}

/-- The code of an `or`. -/
theorem or_arrives {jumps : List Nat} {c₁ : Compiler} (hsmall : R.Small)
    (hsim : R.Simulates ev follows leavesOf) (hargs : args ≠ [])
    (hc : compileOr R.ctx.compile args isTail c [] = .value (c₁, jumps))
    (hev : pOr ev σ args = .value (v, σ')) (hf : OrFollows ev follows leavesOf sc σ args)
    (hp : R.Placed sc c (c₁.patchJumps jumps) p) (hr : R.Rel sc F σ) :
    R.Arrives sc p (p + (emitted c (c₁.patchJumps jumps)).length) F T σ v σ'
      (OrLeaves ev leavesOf · σ args) := by
  obtain ⟨new, code, hnew, hcode, hpatch⟩ := compileOr_code hargs hc
  rw [List.nil_append] at hnew
  subst hnew
  have hem : emitted c (c₁.patchJumps jumps) = code 0 :=
    emitted_of_code_eq (hpatch.patched_code hcode.extends.code_eq)
  have hcode' := hp.code
  rw [hem] at hcode' ⊢
  exact orCode_arrives hsmall hsim hcode hev hf hcode'
    (hp.links.of_pools (pools_patchJumps _ _)) hp.locals hr

section Evaluation

variable {ctx : CompileContext}

theorem evaluateExpression_quote {e : Cell}
    (hev : evaluateExpression ctx false fuel σ (.quote e) = .value (v, σ')) :
    v.cell = e ∧ σ' = σ := by
  cases fuel with
  | zero => cases hev
  | succ fuel =>
      simp only [evaluateExpression, Outcome.value.injEq, Prod.mk.injEq] at hev
      obtain ⟨rfl, rfl⟩ := hev
      exact ⟨rfl, rfl⟩

theorem evaluateExpression_long {n : Word}
    (hev : evaluateExpression ctx false fuel σ (.long n) = .value (v, σ')) :
    v.cell = .long n ∧ σ' = σ := by
  cases fuel with
  | zero => cases hev
  | succ fuel =>
      simp only [evaluateExpression, Outcome.value.injEq, Prod.mk.injEq] at hev
      obtain ⟨rfl, rfl⟩ := hev
      exact ⟨rfl, rfl⟩

/-- A form is evaluated by the primitive its head stands for. -/
theorem evaluateExpression_form (hprim : σ.contents h = .primitive prim)
    (hev : evaluateExpression ctx false (fuel + 1) σ (.expression (.symbol h :: args)) =
      .value (v, σ')) :
    callPrimitive ctx.runtime ctx.flags (evaluateExpression ctx false fuel) fuel prim σ args =
      .value (v, σ') := by
  simp only [evaluateExpression, evaluateHead, Outcome.bind_eq_value_iff, Prod.exists,
    Outcome.value.injEq, Prod.mk.injEq] at hev
  obtain ⟨cell, σ₁, ⟨u, hu, rfl, rfl⟩, hev⟩ := hev
  have hcell : u.cell = .primitive prim := by
    unfold evaluateSymbol at hu
    split at hu
    · cases hu
    · rw [← Outcome.value.inj hu, Val.ofSymbol_cell, hprim]
  simpa only [hcell] using hev

end Evaluation

theorem inlined_of_not_form (hname : h.name ∉ formNames) : inlined h.name = none := by
  have hne : ∀ s ∈ formNames, (h.name == s) = false := fun s hs =>
    beq_eq_false_iff_ne.mpr fun heq => hname (heq ▸ hs)
  simp only [formNames, List.forall_mem_cons] at hne
  simp only [inlined, List.lookup_cons, List.lookup_nil, hne]

theorem compileExpr_emptyAnd {ctx : CompileContext} (hname : h.name = "and") :
    compileExpr ctx (.expression [.symbol h]) isTail c = .value (c.emitOp .true_) := by
  rw [compileExpr]
  simp [hname]

theorem compileExpr_emptyOr {ctx : CompileContext} (hname : h.name = "or") :
    compileExpr ctx (.expression [.symbol h]) isTail c = .value (c.emitOp .nil) := by
  rw [compileExpr]
  simp [hname]

/-- Without operands an `and` is true. -/
theorem emptyAnd_arrives (hev : pAnd ev σ [] = .value (v, σ'))
    (hp : R.Placed sc c (c.emitOp .true_) p) (hr : R.Rel sc F σ) :
    R.Arrives sc p (p + (emitted c (c.emitOp .true_)).length) F T σ v σ' (fun _ => True) := by
  simp only [pAnd, andLoop, Outcome.value.injEq, Prod.mk.injEq] at hev
  obtain ⟨rfl, rfl⟩ := hev
  rw [emitted_emitOp]
  exact .of_goes (goes_true hp.op) rfl hr (by simp [Val.shared])

/-- Without operands an `or` is `nil`. -/
theorem emptyOr_arrives (hev : pOr ev σ [] = .value (v, σ'))
    (hp : R.Placed sc c (c.emitOp .nil) p) (hr : R.Rel sc F σ) :
    R.Arrives sc p (p + (emitted c (c.emitOp .nil)).length) F T σ v σ' (fun _ => True) := by
  simp only [pOr, orLoop, Outcome.value.injEq, Prod.mk.injEq] at hev
  obtain ⟨rfl, rfl⟩ := hev
  rw [emitted_emitOp]
  exact .of_goes (goes_nil hp.op) rfl hr (by simp [Val.nilCell])

/-- The comparisons, whose code differs in one opcode. -/
def comparePrimitive : CompareOp → Primitive
  | .less => .less
  | .greater => .greater
  | .lessEqual => .lessEqual
  | .greaterEqual => .greaterEqual
  | .equal => .equal
  | .notEqual => .notEqual

theorem comparePrimitive_of_opcode {name : String} {op : VmOpcode}
    (hop : compareOpcode name = some op) (hinl : inlined name = some prim) :
    ∃ cop, op = Machine.comparisonOpcode cop ∧ prim = comparePrimitive cop := by
  have hname := mem_formNames_of_compareOpcode hop
  simp only [List.mem_cons, List.not_mem_nil, or_false] at hname
  rcases hname with rfl | rfl | rfl | rfl | rfl | rfl
  · exact ⟨.less, by cases hop; rfl, by cases hinl; rfl⟩
  · exact ⟨.greater, by cases hop; rfl, by cases hinl; rfl⟩
  · exact ⟨.lessEqual, by cases hop; rfl, by cases hinl; rfl⟩
  · exact ⟨.greaterEqual, by cases hop; rfl, by cases hinl; rfl⟩
  · exact ⟨.equal, by cases hop; rfl, by cases hinl; rfl⟩
  · exact ⟨.notEqual, by cases hop; rfl, by cases hinl; rfl⟩

theorem callPrimitive_compare {rt : Runtime} {flags : SymbolFlags} {cop : CompareOp}
    (hev : callPrimitive rt flags ev fuel (comparePrimitive cop) σ args = .value (v, σ')) :
    ∃ d, v = Val.shared d ∧ compareOp rt ev cop σ args = .value (d, σ') := by
  have hcall : callPrimitive rt flags ev fuel (comparePrimitive cop) σ args =
      (compareOp rt ev cop σ args >>= fun r => .value (Val.shared r.1, r.2)) := by
    cases cop <;> rfl
  rw [hcall] at hev
  simp only [Outcome.bind_eq_value_iff, Prod.exists, Outcome.value.injEq, Prod.mk.injEq] at hev
  obtain ⟨d, σ₁, hd, rfl, rfl⟩ := hev
  exact ⟨d, rfl, hd⟩

theorem formFollows_compare {cop : CompareOp}
    (hf : FormFollows R ev follows leavesOf fuel (comparePrimitive cop) sc σ args) :
    OperandsFollow ev follows leavesOf sc σ args ∧
      CompareFollows ev R.ctx.compile.runtime cop σ args := by
  cases cop <;> exact hf

theorem formLeaves_compare (cop : CompareOp) (d : Demand) :
    FormLeaves R ev leavesOf fuel (comparePrimitive cop) d σ args := by
  cases cop <;> trivial

/-- An arithmetic primitive returns a new cell. -/
theorem callPrimitive_arith {rt : Runtime} {flags : SymbolFlags}
    {x : Outcome Error (Cell × Interp)}
    (hcall : callPrimitive rt flags ev fuel prim σ args =
      (x >>= fun r => .value (Val.temp r.1, r.2)))
    (hev : callPrimitive rt flags ev fuel prim σ args = .value (v, σ')) :
    ∃ d, v = Val.temp d ∧ x = .value (d, σ') := by
  rw [hcall] at hev
  simp only [Outcome.bind_eq_value_iff, Prod.exists, Outcome.value.injEq, Prod.mk.injEq] at hev
  obtain ⟨d, σ₁, hd, rfl, rfl⟩ := hev
  exact ⟨d, rfl, hd⟩

/-- A form that leaves what it computes. -/
theorem Arrives.of_true {leaves : Demand → Prop} {p' : Nat}
    (harr : R.Arrives sc p p' F T σ v σ' (fun _ => True)) (hl : ∀ d, leaves d) :
    R.Arrives sc p p' F T σ v σ' leaves :=
  harr.congr fun d => iff_true_intro (hl d)

section Forms

variable (hsmall : R.Small) (hself : SelfEvaluates R.ctx.ev)
  (hanaphoric : ∀ s, isAnaphoric s = true → isProtected R.ctx.compile.flags s = true)

include hsmall hself hanaphoric

/-- The code of a form, where that of its parts follows the tree-walker. -/
theorem form_arrives
    (hsim : R.Simulates (evaluateExpression R.ctx.compile false fuel) (Follows R fuel)
      (Leaves R fuel))
    (hinl : inlined h.name = some prim)
    (hc : compileExpr R.ctx.compile (.expression (.symbol h :: args)) isTail c = .value c')
    (hev : callPrimitive R.ctx.compile.runtime R.ctx.compile.flags
      (evaluateExpression R.ctx.compile false fuel) fuel prim σ args = .value (v, σ'))
    (hf : FormFollows R (evaluateExpression R.ctx.compile false fuel) (Follows R fuel)
      (Leaves R fuel) fuel prim sc σ args)
    (hp : R.Placed sc c c' p) (hr : R.Rel sc F σ) :
    R.Arrives sc p (p + (emitted c c').length) F T σ v σ'
      (FormLeaves R (evaluateExpression R.ctx.compile false fuel) (Leaves R fuel) fuel prim ·
        σ args) := by
  cases compileForm_cases hc with
  | if_ hname hform =>
      rw [hname] at hinl
      obtain rfl : Primitive.if_ = prim := Option.some.inj hinl
      exact if_arrives hsmall hsim hform hev hf hp hr
  | when hname hform =>
      rw [hname] at hinl
      obtain rfl : Primitive.when = prim := Option.some.inj hinl
      exact when_arrives hsmall hsim hform hev hf hp hr
  | begin_ hname hform =>
      rw [hname] at hinl
      obtain rfl : Primitive.evalBlock = prim := Option.some.inj hinl
      exact body_arrives hsim hform hev (fun _ => rfl) hf hp hr
  | while_ hname hform =>
      rw [hname] at hinl
      obtain rfl : Primitive.while_ = prim := Option.some.inj hinl
      exact while_arrives hsmall hsim hform hev hf hp hr fun d => After.of_value hev
  | let_ hname hform =>
      rw [hname] at hinl
      obtain rfl : Primitive.let_ = prim := Option.some.inj hinl
      exact let_arrives hsim hanaphoric hform hev hf hp hr
  | local_ hname hform =>
      rw [hname] at hinl
      obtain rfl : Primitive.local_ = prim := Option.some.inj hinl
      exact local_arrives hsim hanaphoric hform hev hf hp hr
  | dotimes hname hform =>
      rw [hname] at hinl
      obtain rfl : Primitive.dotimes = prim := Option.some.inj hinl
      exact dotimes_arrives hanaphoric hsmall hself hsim hform hev hf hp hr
        fun d => After.of_value hev
  | set isSetq hname hform =>
      cases isSetq with
      | true =>
          rw [hname] at hinl
          obtain rfl : Primitive.setf = prim := Option.some.inj hinl
          exact (setf_arrives hsim args hform hev hf hp hr).of_true fun _ => trivial
      | false =>
          rw [hname] at hinl
          obtain rfl : Primitive.set = prim := Option.some.inj hinl
          exact (set_arrives hsim evaluateExpression_quote args hform hev hf hp hr).of_true
            fun _ => trivial
  | compare op hname hform =>
      obtain ⟨cop, rfl, rfl⟩ := comparePrimitive_of_opcode hname hinl
      obtain ⟨d, rfl, hop⟩ := callPrimitive_compare hev
      obtain ⟨hoperands, hcompare⟩ := formFollows_compare hf
      exact (compare_arrives hsim hform hop hoperands hcompare hp hr).of_true
        (formLeaves_compare cop)
  | condNil hname hargs hform =>
      rw [hname] at hinl
      obtain rfl : Primitive.condition = prim := Option.some.inj hinl
      subst hargs hform
      have hclauses : compileClauses R.ctx.compile [] isTail (c.emitOp .nil) [] =
          .value (c.emitOp .nil, []) := rfl
      exact cond_arrives hsmall hsim hclauses hev hf hp hr
  | cond hname c₁ endJumps hclauses hform =>
      rw [hname] at hinl
      obtain rfl : Primitive.condition = prim := Option.some.inj hinl
      subst hform
      exact cond_arrives hsmall hsim hclauses hev hf hp hr
  | andNil hname hargs hform =>
      rw [hname] at hinl
      obtain rfl : Primitive.and = prim := Option.some.inj hinl
      subst hargs hform
      exact (emptyAnd_arrives hev hp hr).of_true fun _ => trivial
  | and hname c₁ exitJumps hand hform =>
      rw [hname] at hinl
      obtain rfl : Primitive.and = prim := Option.some.inj hinl
      by_cases hargs : args = []
      · subst hargs
        obtain rfl := Outcome.value.inj (hc.symm.trans (compileExpr_emptyAnd hname))
        exact (emptyAnd_arrives hev hp hr).of_true fun _ => trivial
      · subst hform
        exact and_arrives hsmall hsim hargs hand hev hf hp hr
  | orNil hname hargs hform =>
      rw [hname] at hinl
      obtain rfl : Primitive.or = prim := Option.some.inj hinl
      subst hargs hform
      exact (emptyOr_arrives hev hp hr).of_true fun _ => trivial
  | or hname c₁ exitJumps hor hform =>
      rw [hname] at hinl
      obtain rfl : Primitive.or = prim := Option.some.inj hinl
      by_cases hargs : args = []
      · subst hargs
        obtain rfl := Outcome.value.inj (hc.symm.trans (compileExpr_emptyOr hname))
        exact (emptyOr_arrives hev hp hr).of_true fun _ => trivial
      · subst hform
        exact or_arrives hsmall hsim hargs hor hev hf hp hr
  | inc op1 op hname hform =>
      rcases hname with ⟨hname, -, -⟩ | ⟨hname, -, -⟩ <;> rw [hname] at hinl <;> cases hinl
  | add hname hform =>
      rw [hname] at hinl
      obtain rfl : Primitive.add = prim := Option.some.inj hinl
      obtain ⟨d, rfl, hop⟩ := callPrimitive_arith rfl hev
      exact (add_arrives hself hsim evaluateExpression_long hform hop hf.1 hf.2.1 hf.2.2 hp
        hr).of_true fun _ => trivial
  | subtract hname hform =>
      rw [hname] at hinl
      obtain rfl : Primitive.subtract = prim := Option.some.inj hinl
      obtain ⟨d, rfl, hop⟩ := callPrimitive_arith rfl hev
      exact (subtract_arrives hself hsim evaluateExpression_long hform hop hf hp hr).of_true
        fun _ => trivial
  | multiply hname hform =>
      rw [hname] at hinl
      obtain rfl : Primitive.multiply = prim := Option.some.inj hinl
      obtain ⟨d, rfl, hop⟩ := callPrimitive_arith rfl hev
      exact (multiply_arrives hself hsim hform hop hf.1 hf.2 hp hr).of_true fun _ => trivial
  | divide hname hform =>
      rw [hname] at hinl
      obtain rfl : Primitive.divide = prim := Option.some.inj hinl
      obtain ⟨d, rfl, hop⟩ := callPrimitive_arith rfl hev
      exact (divide_arrives hself hsim hform hop hf hp hr).of_true fun _ => trivial
  | callSelf hname hself' c₁ hargs hform =>
      rw [inlined_of_not_form hname] at hinl
      cases hinl
  | call hname hself' hspecial c₁ hargs hform =>
      rw [inlined_of_not_form hname] at hinl
      cases hinl

omit hsmall hself hanaphoric in
/-- What a form leaves behind is what the primitive it is compiled as says. -/
theorem leaves_form {d : Demand} (hinl : inlined h.name = some prim) :
    Leaves R (fuel + 1) d σ (.expression (.symbol h :: args)) ↔
      FormLeaves R (evaluateExpression R.ctx.compile false fuel) (Leaves R fuel) fuel prim d σ
        args := by
  constructor
  · intro hl
    exact hl prim hinl
  · intro hl prim' hinl'
    obtain rfl := Option.some.inj (hinl.symm.trans hinl')
    exact hl

omit hself hanaphoric in
/-- The code of an integer. -/
theorem long_arrives {n : Word} (hc : compileExpr R.ctx.compile (.long n) isTail c = .value c')
    (hf : n = 0 ∨ n = 1 ∨ n = 2 ∨ Pooled R (.long n)) (hp : R.Placed sc c c' p)
    (hr : R.Rel sc F σ) :
    R.Arrives sc p (p + (emitted c c').length) F T σ (Val.temp (.long n)) σ (fun _ => True) := by
  rw [compileExpr] at hc
  split_ifs at hc with h0 h1 h2
  · obtain rfl := Outcome.value.inj hc
    rw [emitted_emitOp]
    exact .of_goes (goes_const0 hp.op) (Val.temp_deref _ _) hr (by simp [h0])
  · obtain rfl := Outcome.value.inj hc
    rw [emitted_emitOp]
    exact .of_goes (goes_const1 hp.op) (Val.temp_deref _ _) hr (by simp [h1])
  · obtain rfl := Outcome.value.inj hc
    rw [emitted_emitOp]
    exact .of_goes (goes_const2 hp.op) (Val.temp_deref _ _) hr (by simp [h2])
  · have hpooled : Pooled R (.long n) := by simpa only [h0, h1, h2, false_or] using hf
    exact constant_arrives hsmall hc hpooled rfl hp hr

/-- The code of every expression follows the tree-walker along its run. -/
theorem simulates (fuel : Nat) :
    R.Simulates (evaluateExpression R.ctx.compile false fuel) (Follows R fuel)
      (Leaves R fuel) := by
  induction fuel with
  | zero =>
      intro e isTail c c' sc σ σ' v p F T hc hev
      cases hev
  | succ fuel ih =>
      intro e isTail c c' sc σ σ' v p F T hc hev hf hp hr
      cases e with
      | nil =>
          obtain rfl := Outcome.value.inj hc
          obtain ⟨rfl, rfl⟩ := Prod.mk.inj (Outcome.value.inj hev)
          rw [emitted_emitOp]
          exact .of_goes (goes_nil hp.op) rfl hr (by simp [Val.nilCell, Leaves])
      | true_ =>
          obtain rfl := Outcome.value.inj hc
          obtain ⟨rfl, rfl⟩ := Prod.mk.inj (Outcome.value.inj hev)
          rw [emitted_emitOp]
          exact .of_goes (goes_true hp.op) rfl hr (by simp [Val.shared, Leaves])
      | long n =>
          obtain ⟨rfl, rfl⟩ := Prod.mk.inj (Outcome.value.inj hev)
          exact (long_arrives hsmall hc hf hp hr).of_true fun _ => trivial
      | float x =>
          obtain ⟨rfl, rfl⟩ := Prod.mk.inj (Outcome.value.inj hev)
          exact (constant_arrives hsmall hc hf rfl hp hr).of_true fun _ => trivial
      | string l =>
          obtain ⟨rfl, rfl⟩ := Prod.mk.inj (Outcome.value.inj hev)
          exact (constant_arrives hsmall hc hf rfl hp hr).of_true fun _ => trivial
      | quote e =>
          obtain ⟨rfl, rfl⟩ := Prod.mk.inj (Outcome.value.inj hev)
          exact (constant_arrives hsmall hc hf rfl hp hr).of_true fun _ => trivial
      | symbol s =>
          obtain rfl := Outcome.value.inj hc
          simp only [evaluateExpression, Outcome.bind_eq_value_iff, Outcome.value.injEq,
            Prod.mk.injEq] at hev
          obtain ⟨u, hu, rfl, rfl⟩ := hev
          exact (symbol_arrives hsmall hu hf hp hr).of_true fun _ => trivial
      | expression l =>
          cases l with
          | nil => cases hev
          | cons head args =>
              cases head with
              | symbol h =>
                  obtain ⟨prim, hinl, hprim, hform⟩ := hf
                  exact (form_arrives hsmall hself hanaphoric ih hinl hc
                    (evaluateExpression_form hprim hev) hform hp hr).congr
                      fun d => leaves_form hinl
              | _ => exact hf.elim
      | _ => cases hc

end Forms

end Run

end NewLispNeo
