/-
A call of a lambda: the run of its bytecode on the arguments against the tree-walker's.
-/
import NewLispNeo.CompiledForms
import NewLispNeo.Startup

namespace NewLispNeo

open StepRun Compiler Machine

section Parameters

variable {params : List Symbol} {s : Symbol} {i j k : Nat}

/-- A slot is the place of its symbol among the parameters; behind the comma it is one short of
that at least. -/
theorem place_of_slot (hs : s.name ≠ ",")
    (h : findLocalFrom s i ((slotSymbols params).map some) = some k) :
    ∃ k', findLocalFrom s j (params.map some) = some k' ∧ k - i ≤ k' - j ∧
      (k' - j = k - i ∨ numParamsOf params ≤ k - i) := by
  induction params generalizing i j with
  | nil => cases h
  | cons param params ih =>
      by_cases hparam : param.name = ","
      · have hslots : slotSymbols (param :: params) = slotSymbols params := by
          simp [slotSymbols, hparam]
        rw [hslots] at h
        obtain ⟨k', hk', hle, -⟩ := ih (j := j + 1) h
        refine ⟨k', by rw [List.map_cons, findLocalFrom, hk'], by omega, .inr ?_⟩
        simp [numParamsOf, hparam]
      · have hslots : slotSymbols (param :: params) = param :: slotSymbols params := by
          simp [slotSymbols, hparam]
        have hnum : numParamsOf (param :: params) = numParamsOf params + 1 := by
          simp [numParamsOf, hparam]
        rw [hslots, List.map_cons, findLocalFrom] at h
        cases hrec : findLocalFrom s (i + 1) ((slotSymbols params).map some) with
        | some l =>
            rw [hrec] at h
            obtain rfl := Option.some.inj h
            obtain ⟨k', hk', hle, hcase⟩ := ih (j := j + 1) hrec
            have hi := (findLocalFrom_range hrec).1
            have hj := (findLocalFrom_range hk').1
            refine ⟨k', by rw [List.map_cons, findLocalFrom, hk'], by omega, ?_⟩
            omega
        | none =>
            have hmem : s ∉ params := fun hmem => findLocalFrom_params_none.mp hrec
              (by simp [slotSymbols, hmem, hs])
            rw [hrec] at h
            simp only at h
            split at h
            · rename_i heq
              obtain rfl := Option.some.inj h
              refine ⟨j, ?_, by omega, .inl (by omega)⟩
              rw [List.map_cons, findLocalFrom, findLocalFrom_params_none.mpr hmem]
              simp only [heq, if_true]
            · cases h

/-- To bind the parameters is to bind their symbols one after the other. -/
theorem bindParams_letBind {flags : SymbolFlags} {ev : Evaluator} {σ σ' : Interp}
    {saved saved' : Environment} {args rest : List Cell}
    (h : bindParams ev flags σ saved (params.map .symbol) args = .value (σ', saved', rest)) :
    ∃ list, list.map Prod.fst = params ∧ letBind flags σ saved list = .value (σ', saved') := by
  induction params generalizing σ saved args with
  | nil =>
      simp only [List.map_nil, bindParams, Outcome.value.injEq, Prod.mk.injEq] at h
      obtain ⟨rfl, rfl, -⟩ := h
      exact ⟨[], rfl, rfl⟩
  | cons param params ih =>
      simp only [List.map_cons, bindParams, Outcome.bind_eq_value_iff, Prod.exists] at h
      obtain ⟨σ₁, saved₁, hpush, h⟩ := h
      obtain ⟨list, hlist, hbind⟩ := ih h
      refine ⟨(param, args.headD .nil) :: list, by rw [List.map_cons, hlist], ?_⟩
      simp only [letBind, hpush, Outcome.value_bind, hbind]

end Parameters

/-- What the bytecode of a lambda finds when it is called. -/
def Run.ofCall (ctx : MachineContext) (bc : Bytecode) (self : Cell) (σ : Interp) : Run where
  ctx := ctx
  bytecode := bc
  globals := σ
  self := self
  base := []
  frames := []

/-- The scope of the body of a lambda. -/
def lambdaScope (params : List Symbol) : Scope := ⟨(slotSymbols params).map some, []⟩

/-- The state in which the tree-walker evaluates the body. -/
def enterLambda (σ : Interp) (params : List Symbol) (values : List Cell) : Interp :=
  (bindArgs σ params values).bindNew argsSymbol (.expression (values.drop params.length))

/-- The arguments are for the parameters before the comma, if there is one. -/
def NoLocalArgs (params : List Symbol) (values : List Cell) : Prop :=
  (∀ s ∈ params, s.name ≠ ",") ∨ values.length ≤ numParamsOf params

namespace Run

variable {ctx : MachineContext} {bc : Bytecode} {self : Cell} {σ σ₁ σ' : Interp}
  {params : List Symbol} {body args values : List Cell} {v : Val} {fuel : Nat}

/-- An argument is in the slot of its parameter. -/
theorem arg_of_slot (hlocal : NoLocalArgs params values) {s : Symbol} {k : Nat}
    (hs : s.name ≠ ",") (hk : (lambdaScope params).slot s = some k) :
    (bindArgs σ params values).contents s = (values[k]?).getD .nil := by
  obtain ⟨k', hk', hle, hcase⟩ := place_of_slot (j := 0) hs hk
  rw [bindArgs_contents hk']
  simp only [Nat.sub_zero] at hle hcase ⊢
  rcases hlocal with hcomma | hfew
  · rw [lambdaScope, Scope.slot, slotSymbols_eq_self hcomma, hk'] at hk
    obtain rfl := Option.some.inj hk
    rfl
  · rcases hcase with rfl | hnum
    · rfl
    · rw [List.getElem?_eq_none (by omega), List.getElem?_eq_none (by omega)]

/-- The frame of a call and the parameters of the tree-walker. -/
theorem rel_ofCall (ctx : MachineContext) (self : Cell) (σ : Interp)
    (hlocal : NoLocalArgs params values)
    (hplain : ∀ s ∈ params, isAnaphoric s = false)
    (hfew : (slotSymbols params).length ≤ NewLispNeo.maxLocals)
    (hslots : (slotSymbols params).length ≤ bc.numLocals) :
    (Run.ofCall ctx bc self σ).Rel (lambdaScope params) (frameOf bc (values.map Val.temp))
      (enterLambda σ params values) := by
  have hmem : ∀ s k, (lambdaScope params).slot s = some k → s ∈ params ∧ s.name ≠ "," := by
    intro s k hk
    have hin : s ∈ slotSymbols params := by
      by_contra hnot
      rw [lambdaScope, Scope.slot, findLocalFrom_params_none.mpr hnot] at hk
      cases hk
    simpa [slotSymbols] using hin
  have hargs : ∀ s, isAnaphoric s = false → s ≠ argsSymbol := by
    rintro s hs rfl
    simp [isAnaphoric] at hs
  refine ⟨?_, by simpa [lambdaScope] using hfew, fun s hs => ?_, fun s k _ hk => ?_,
    fun s _ hs hspec => ?_⟩
  · rw [frameOf_length]
    exact Nat.le_max_left _ _
  · obtain ⟨k, hk⟩ := Option.ne_none_iff_exists'.mp hs
    exact hplain s (hmem s k hk).1
  · obtain ⟨hin, hcomma⟩ := hmem s k hk
    rw [enterLambda, Interp.bindNew_contents_ne _ _ (hargs s (hplain s hin)),
      arg_of_slot hlocal hcomma hk]
    have hlt := Scope.slot_lt hk
    simp only [lambdaScope, List.length_map] at hlt
    exact frameOf_temp (by omega) σ
  · have hplain' : isAnaphoric s = false := by
      by_contra h
      exact hspec (.inl (by simpa using h))
    have hnot : s ∉ params := by
      intro hin
      have hcomma : s.name ≠ "," := fun h => hspec (.inr (.inl h))
      exact findLocalFrom_params_none.mp hs (by simp [slotSymbols, hin, hcomma])
    rw [enterLambda, Interp.bindNew_contents_ne _ _ (hargs s hplain'),
      bindArgs_contents_of_not_mem hnot]
    rfl

/-- The variables are what they were when the tree-walker leaves the lambda. -/
theorem leave_lambda {τ : Interp} {list : List (Symbol × Cell)} {saved : Environment}
    {b : Binding} (hbind : letBind ctx.compile.flags σ [] list = .value (σ₁, saved))
    (hr : (Run.ofCall ctx bc self σ).Rel (lambdaScope (list.map Prod.fst)) (F : List Val) τ)
    {s : Symbol} (hs : ¬ (Run.ofCall ctx bc self σ).IsSpecial s) :
    (restoreEnvironment τ ((argsSymbol, b) :: saved)).contents s = σ.contents s := by
  have hargs : s ≠ argsSymbol := by
    rintro rfl
    exact hs (.inl (by simp [isAnaphoric]))
  rw [restoreEnvironment, restoreEnvironment_contents hbind]
  split
  · rfl
  · rename_i hnot
    rw [Interp.setBind_contents_ne _ _ hargs]
    refine (hr.global s (by simp [lambdaScope]) ?_ hs).symm
    refine findLocalFrom_params_none.mpr fun hin => hnot ?_
    exact (List.mem_filter.mp hin).1

/-- The bytecode of a lambda and the tree-walker's run of it.  If the code follows that run, it
comes to an end: it returns what the tree-walker returns exactly when the body leaves that
behind, and neither has changed a variable in the end. -/
theorem lambda_returns {vm : Bool} {depth : Nat}
    (hctx : ctx.ev = evaluateExpression ctx.compile vm (depth + 1))
    (hanaphoric : ∀ s, isAnaphoric s = true → isProtected ctx.compile.flags s = true)
    (hbc : compileLambda ctx.compile (.expression (params.map .symbol) :: body) = .value bc)
    (hsmall : (Run.ofCall ctx bc self σ₁).Small)
    (hargs : evaluateArgs (evaluateExpression ctx.compile false fuel) σ args =
      .value (values, σ₁))
    (hlocal : NoLocalArgs params values)
    (hev : evaluateLambda (evaluateExpression ctx.compile false fuel) ctx.compile.flags σ
      (.expression (params.map .symbol) :: body) args = .value (v, σ'))
    (hf : BlockFollows (evaluateExpression ctx.compile false fuel)
      (Follows (Run.ofCall ctx bc self σ₁) fuel) (lambdaScope params)
      (enterLambda σ₁ params values) body) :
    ∃ cell, EndsIn (step ctx) (start bc self (values.map Val.temp) σ₁) (.value (cell, σ₁)) ∧
      (cell = v.cell ↔ BlockLeaves (evaluateExpression ctx.compile false fuel)
        (Leaves (Run.ofCall ctx bc self σ₁) fuel) .all (enterLambda σ₁ params values) body) ∧
      ∀ s, ¬ (Run.ofCall ctx bc self σ₁).IsSpecial s → σ'.contents s = σ₁.contents s := by
  obtain ⟨c, hc, hfew, heq⟩ := compileLambda_eq hbc
  simp only [evaluateLambda, hargs, Outcome.value_bind, Outcome.bind_eq_value_iff, Prod.exists,
    Outcome.value.injEq, Prod.mk.injEq] at hev
  obtain ⟨σ₂, saved, rest, hbind, result, σ₄, hblock, rfl, rfl⟩ := hev
  obtain ⟨list, rfl, hlet⟩ := bindParams_letBind hbind
  have hplain := plain_of_letBind hanaphoric hlet
  have hprot := (letBind_spec hlet).1
  -- the state in which the body is evaluated
  obtain ⟨saved', hbind'⟩ : ∃ saved', bindParams (evaluateExpression ctx.compile false fuel)
      ctx.compile.flags σ₁ [] ((list.map Prod.fst).map .symbol) values =
        .value (bindArgs σ₁ (list.map Prod.fst) values, saved',
          values.drop (list.map Prod.fst).length) :=
    bindParams_symbols hprot σ₁ [] values
  obtain ⟨rfl, -, rfl⟩ : _ ∧ _ ∧ _ := by
    simpa only [hbind', Outcome.value.injEq, Prod.mk.injEq] using hbind
  have hext := compileBody_ext hc
  have hslots : (slotSymbols (list.map Prod.fst)).length ≤ bc.numLocals := by
    rw [heq]
    exact hext.maxLocals
  have hr := rel_ofCall ctx self σ₁ hlocal hplain hfew hslots
  -- its code, and the return behind it
  have hcode : (Run.ofCall ctx bc self σ₁).Code 0 (emitted (bodyCompiler (list.map Prod.fst)) c ++
      [VmOpcode.ret.toByte]) := by
    have hret := (Extends.refl c).emitOp .ret
    have hall := (hext.trans hret).code_eq
    rw [hext.emitted_trans hret, emitted_emitOp] at hall
    have hcode : bc.code = emitted (bodyCompiler (list.map Prod.fst)) c ++
        [VmOpcode.ret.toByte] := by
      rw [heq]
      exact hall
    rw [← hcode]
    exact CodeAt.self _
  have hlinks : (Run.ofCall ctx bc self σ₁).Links c := by
    rw [heq]
    exact ⟨List.prefix_rfl, List.prefix_rfl, le_rfl⟩
  rw [code_append] at hcode
  obtain ⟨F', w, cell, hg, hw, hl, hr', -⟩ := body_arrives (T := []) (w := Val.nilCell)
    (simulates hsmall (hctx ▸ evaluateExpression_selfEvaluates ctx.compile vm depth) hanaphoric
      fuel) hc hblock (fun _ => rfl) hf ⟨hcode.1, hlinks, rfl⟩ hr
  refine ⟨cell, ?_, ?_, fun s hs => leave_lambda hlet hr' hs⟩
  · have hstart : start bc self (values.map Val.temp) σ₁ =
        (Run.ofCall ctx bc self σ₁).machine 0 (frameOf bc (values.map Val.temp)) [] := by
      simp [start, machine, Run.ofCall]
    rw [hstart]
    exact hg.endsIn (endsIn_ret hcode.2 rfl hw rfl)
  · exact (hl .all).symm

end Run

section SumTo

/-- `n , s`. -/
def sumToParams : List Symbol := [mainSymbol "n", mainSymbol ",", mainSymbol "s"]

/-- `(< 0 n)`. -/
def sumToTest : Cell :=
  .expression [.symbol (mainSymbol "<"), .long 0, .symbol (mainSymbol "n")]

/-- `(+ s n)`. -/
def sumToNext : Cell :=
  .expression [.symbol (mainSymbol "+"), .symbol (mainSymbol "s"), .symbol (mainSymbol "n")]

/-- `(- n 1)`. -/
def sumToCount : Cell :=
  .expression [.symbol (mainSymbol "-"), .symbol (mainSymbol "n"), .long 1]

def setqCell (name : String) (e : Cell) : Cell :=
  .expression [.symbol (mainSymbol "setq"), .symbol (mainSymbol name), e]

/-- `(setq s 0)`, `(while (< 0 n) (setq s (+ s n)) (setq n (- n 1)))` and `s`. -/
def sumTo : List Cell :=
  [setqCell "s" (.long 0),
    .expression [.symbol (mainSymbol "while"), sumToTest, setqCell "s" sumToNext,
      setqCell "n" sumToCount],
    .symbol (mainSymbol "s")]

def sumToBytecode : Bytecode where
  code := [37, 5, 34, 4, 37, 29, 15, 12, 14, 0, 30, 29, 21, 5, 34, 4, 29, 40, 5, 33, 4, 11,
    236, 255, 1, 4, 30, 14]
  constants := []
  symbols := []
  numParams := 1
  numLocals := 2

def sumToRun : Run := .ofCall (startupMachine 1) sumToBytecode .nil startup

theorem After.intro {x : Outcome Error (Val × Interp)} {v : Val} {σ : Interp}
    {P : Val → Interp → Prop} (h : x = .value (v, σ)) (hP : P v σ) : After x P :=
  (After.of_value h).mpr hP

/-- A variable with a slot can be read once it is bound. -/
theorem Readable.of_slot {R : Run} {sc : Scope} {s : Symbol} {k : Nat} {σ : Interp}
    (hs : s ∉ sc.hidden) (hk : sc.slot s = some k) : Readable R sc σ s :=
  ⟨hs, fun hnone => by rw [hk] at hnone; cases hnone⟩

variable {fuel : Nat} {d : Demand} {σ : Interp}

theorem readable_n : Readable sumToRun (lambdaScope sumToParams) σ (mainSymbol "n") :=
  .of_slot (by simp [lambdaScope]) rfl

theorem readable_s : Readable sumToRun (lambdaScope sumToParams) σ (mainSymbol "s") :=
  .of_slot (by simp [lambdaScope]) rfl

theorem settable_n : Settable (lambdaScope sumToParams) (mainSymbol "n") :=
  ⟨by simp [lambdaScope], by decide⟩

theorem settable_s : Settable (lambdaScope sumToParams) (mainSymbol "s") :=
  ⟨by simp [lambdaScope], by decide⟩

theorem sumToTest_follows (hless : σ.contents (mainSymbol "<") = .primitive .less) :
    Follows sumToRun (fuel + 2) (lambdaScope sumToParams) σ sumToTest ∧
      Leaves sumToRun (fuel + 2) d σ sumToTest := by
  refine ⟨⟨.less, rfl, hless, ⟨.inl rfl, trivial, .intro rfl ⟨readable_n, trivial,
    .intro rfl trivial⟩⟩, .intro rfl (.intro rfl ⟨rfl, ?_⟩)⟩, ?_⟩
  · rintro (h | h) <;> cases h
  · intro p hp
    cases hp
    trivial

theorem sumToNext_follows (hadd : σ.contents (mainSymbol "+") = .primitive .add) :
    Follows sumToRun (fuel + 2) (lambdaScope sumToParams) σ sumToNext ∧
      Leaves sumToRun (fuel + 2) d σ sumToNext := by
  refine ⟨⟨.add, rfl, hadd, ⟨readable_s, trivial, .intro rfl ⟨readable_n, trivial,
    .intro rfl trivial⟩⟩, trivial, trivial⟩, ?_⟩
  intro p hp
  cases hp
  trivial

theorem sumToCount_follows (hsub : σ.contents (mainSymbol "-") = .primitive .subtract) :
    Follows sumToRun (fuel + 2) (lambdaScope sumToParams) σ sumToCount ∧
      Leaves sumToRun (fuel + 2) d σ sumToCount := by
  refine ⟨⟨.subtract, rfl, hsub, readable_n, trivial, .intro rfl ⟨.inr (.inl rfl), trivial,
    .intro rfl trivial⟩⟩, ?_⟩
  intro p hp
  cases hp
  trivial

/-- The loop goes round once when `n` is one. -/
theorem sumTo_follows : BlockFollows (evaluateExpression startupContext false 4)
    (Follows sumToRun 4) (lambdaScope sumToParams) (enterLambda startup sumToParams [.long 1])
    sumTo := by
  refine ⟨⟨.setf, rfl, rfl, settable_s, .inl rfl, trivial, .intro rfl trivial⟩,
    .intro rfl ⟨⟨.while_, rfl, rfl, ?_⟩, .intro rfl ⟨readable_s, .intro rfl trivial⟩⟩⟩
  refine ⟨(sumToTest_follows (d := .all) rfl).1, (sumToTest_follows rfl).2,
    .intro rfl fun _ => ⟨⟨?_, .intro rfl ⟨?_, .intro rfl trivial⟩⟩, .intro rfl fun σ hσ => ?_⟩⟩
  · exact ⟨.setf, rfl, rfl, settable_s, (sumToNext_follows (d := .all) rfl).1,
      (sumToNext_follows rfl).2, .intro rfl trivial⟩
  · exact ⟨.setf, rfl, rfl, settable_n, (sumToCount_follows (d := .all) rfl).1,
      (sumToCount_follows rfl).2, .intro rfl trivial⟩
  · obtain rfl := Outcome.value.inj hσ
    refine ⟨(sumToTest_follows (d := .all) rfl).1, (sumToTest_follows rfl).2,
      .intro rfl fun h => ?_⟩
    cases h

theorem startup_anaphoric : ∀ s, isAnaphoric s = true → isProtected startupFlags s = true := by
  intro s hs
  simp only [isAnaphoric, Bool.or_eq_true, decide_eq_true_eq] at hs
  rcases hs with (rfl | rfl) | rfl <;> decide

theorem lambda_returns_sum : EndsIn (step (startupMachine 1))
    (start sumToBytecode .nil [Val.temp (.long 1)] startup) (.value (.long 1, startup)) := by
  have hleaves : BlockLeaves (evaluateExpression startupContext false 4) (Leaves sumToRun 4) .all
      (enterLambda startup sumToParams [.long 1]) sumTo := .intro rfl (.intro rfl trivial)
  obtain ⟨cell, hend, hcell, -⟩ := @Run.lambda_returns (startupMachine 1) sumToBytecode .nil
    startup startup _ sumToParams sumTo [.long 1] [.long 1] _ 4 true 0 rfl startup_anaphoric rfl
    ⟨by decide, by decide, by decide⟩ rfl (.inr le_rfl) rfl sumTo_follows
  obtain rfl := hcell.mpr hleaves
  exact hend

end SumTo

end NewLispNeo
