/-
What the tree-walking evaluator keeps: every property of the interpreter that
does not depend on what an unprotected symbol or one of the symbols the
interpreter itself sets is bound to.
-/
import NewLispNeo.Interpreter
import NewLispNeo.Refines

namespace NewLispNeo

open Outcome

/-- The symbols the interpreter itself sets: `$it`, `$idx` and `$args`. -/
def ownSymbols : List Symbol := [itSymbol, listIdxSymbol, argsSymbol]

/-- A program may bind `s`, or the interpreter does. -/
def Bindable (flags : SymbolFlags) (s : Symbol) : Prop :=
  isProtected flags s = false ∨ s ∈ ownSymbols

section

variable {flags : SymbolFlags}

theorem it_bindable : Bindable flags itSymbol := .inr (by simp [ownSymbols])

theorem listIdx_bindable : Bindable flags listIdxSymbol :=
  .inr (by simp [ownSymbols])

theorem args_bindable : Bindable flags argsSymbol := .inr (by simp [ownSymbols])

end

/-- A property that the bindings of bindable symbols and the supply of cells
have no part in. -/
structure Stable (flags : SymbolFlags) (inv : Interp → Prop) : Prop where
  setBind : ∀ {σ : Interp} {s : Symbol} (b : Binding), Bindable flags s →
    inv σ → inv (σ.setBind s b)
  supply : ∀ {σ : Interp} (next : Nat) (itFreed : Bool), inv σ →
    inv { σ with next := next, itFreed := itFreed }

namespace Stable

variable {flags : SymbolFlags} {inv : Interp → Prop} {σ : Interp} {s : Symbol}

theorem bindNew (hinv : Stable flags inv) (hs : Bindable flags s) (c : Cell)
    (h : inv σ) : inv (σ.bindNew s c) :=
  hinv.supply (σ.next + 1) σ.itFreed (hinv.setBind _ hs h)

theorem bindNil (hinv : Stable flags inv) (hs : Bindable flags s) (h : inv σ) :
    inv (σ.bindNil s) := hinv.setBind _ hs h

theorem assign (hinv : Stable flags inv) (hs : Bindable flags s) (c : Cell)
    (h : inv σ) : inv (σ.assign s c) :=
  hinv.supply _ _ (hinv.bindNew hs c h)

theorem overwrite (hinv : Stable flags inv) (hs : Bindable flags s) (c : Cell)
    (h : inv σ) : inv (σ.overwrite s c) := by
  have hfirst := hinv.setBind ⟨c, (σ.bind s).id⟩ hs h
  unfold Interp.overwrite
  split
  · exact hinv.setBind _ it_bindable hfirst
  · exact hfirst

theorem pointIt (hinv : Stable flags inv) (v : Val) (h : inv σ) :
    inv (σ.pointIt v) := by
  rcases v with ⟨c, _ | _ | ⟨s, id⟩⟩
  · exact hinv.supply _ false (hinv.bindNew it_bindable c h)
  · exact hinv.supply _ false (hinv.setBind ⟨c, 0⟩ it_bindable h)
  · exact hinv.supply _ false (hinv.setBind ⟨c, id⟩ it_bindable h)

theorem clearIt (hinv : Stable flags inv) (h : inv σ) : inv σ.clearIt :=
  hinv.supply _ false (hinv.bindNil it_bindable h)

end Stable

/-- `ev'` evaluates like `ev` as far as it goes, and keeps the property. -/
def Keeps (inv : Interp → Prop) (ev' ev : Evaluator) : Prop :=
  ∀ σ e, inv σ → Refines (fun r => inv r.2) (ev' σ e) (ev σ e)

/-- As `Keeps`, for a part of the evaluator that returns `x` or `y`. -/
abbrev KeepsOn {α : Type} (inv : Interp → Prop)
    (x y : Outcome Error (α × Interp)) : Prop :=
  Refines (fun r => inv r.2) x y

section

variable {flags : SymbolFlags} {inv : Interp → Prop} {ev' ev : Evaluator}
  (hev : Keeps inv ev' ev) {σ : Interp} {s : Symbol}

include hev

theorem Keeps.param (params : List Cell) (h : inv σ) :
    KeepsOn inv (evaluateParam ev' σ params) (evaluateParam ev σ params) := by
  cases params with
  | nil => exact .value h
  | cons param params => exact hev σ param h

theorem Keeps.blockFrom (cells : List Cell) (v : Val) (h : inv σ) :
    KeepsOn inv (evaluateBlockFrom ev' σ v cells)
      (evaluateBlockFrom ev σ v cells) := by
  induction cells generalizing σ v with
  | nil => exact .value h
  | cons cell cells ih => exact (hev σ cell h).bind fun r hr => ih r.1 hr

theorem Keeps.block (cells : List Cell) (h : inv σ) :
    KeepsOn inv (evaluateBlock ev' σ cells) (evaluateBlock ev σ cells) :=
  hev.blockFrom cells Val.nilCell h

theorem Keeps.args (args : List Cell) (h : inv σ) :
    KeepsOn inv (evaluateArgs ev' σ args) (evaluateArgs ev σ args) := by
  induction args generalizing σ with
  | nil => exact .value h
  | cons arg args ih =>
      exact (hev σ arg h).bind fun r hr => (ih hr).bind fun _ hr => .value hr

theorem Keeps.ifLoop {σ : Interp} (params : List Cell) (cell : Val)
    (h : inv σ) :
    KeepsOn inv (ifLoop ev' σ cell params) (ifLoop ev σ cell params) := by
  match params with
  | [] => exact .value h
  | [then_] =>
      unfold NewLispNeo.ifLoop
      split
      · exact .value h
      · exact hev σ then_ h
  | then_ :: condition :: params =>
      unfold NewLispNeo.ifLoop
      split
      · exact (hev σ condition h).bind fun r hr => Keeps.ifLoop params r.1 hr
      · exact hev σ then_ h

theorem Keeps.ifNot (params : List Cell) (h : inv σ) :
    KeepsOn inv (pIfNot ev' σ params) (pIfNot ev σ params) :=
  (hev.param params h).bind fun _ hr => hev.param _ hr

theorem Keeps.when (params : List Cell) (h : inv σ) :
    KeepsOn inv (pWhen ev' σ params) (pWhen ev σ params) := by
  refine (hev.param params h).bind fun r hr => ?_
  dsimp only
  split
  · exact .value hr
  · exact hev.blockFrom _ _ hr

theorem Keeps.unless (params : List Cell) (h : inv σ) :
    KeepsOn inv (pUnless ev' σ params) (pUnless ev σ params) := by
  refine (hev.param params h).bind fun r hr => ?_
  dsimp only
  split
  · exact hev.blockFrom _ _ hr
  · exact .value hr

theorem Keeps.conditionLoop (clauses : List Cell) (eval : Val) (h : inv σ) :
    KeepsOn inv (conditionLoop ev' σ eval clauses)
      (conditionLoop ev σ eval clauses) := by
  induction clauses generalizing σ eval with
  | nil => exact .value h
  | cons clause clauses ih =>
      cases clause with
      | expression condition =>
          refine (hev.param condition h).bind fun r hr => ?_
          dsimp only
          split
          · exact ih r.1 hr
          · split
            · exact .value hr
            · exact hev.block _ hr
      | _ => exact .error _ _

theorem Keeps.andLoop (params : List Cell) (result : Val) (h : inv σ) :
    KeepsOn inv (andLoop ev' σ result params) (andLoop ev σ result params) := by
  induction params generalizing σ result with
  | nil => exact .value h
  | cons param params ih =>
      refine (hev σ param h).bind fun r hr => ?_
      dsimp only
      split
      · exact .value hr
      · exact ih r.1 hr

theorem Keeps.orLoop (params : List Cell) (result : Val) (h : inv σ) :
    KeepsOn inv (orLoop ev' σ result params) (orLoop ev σ result params) := by
  induction params generalizing σ result with
  | nil => exact .value h
  | cons param params ih =>
      refine (hev σ param h).bind fun r hr => ?_
      dsimp only
      split
      · exact ih r.1 hr
      · exact .value hr

end

/-- The symbols a form has bound are not protected. -/
def Restorable (flags : SymbolFlags) (saved : Environment) : Prop :=
  ∀ x ∈ saved, Bindable flags x.1

section

variable {flags : SymbolFlags} {inv : Interp → Prop} {ev' ev : Evaluator}
  (hinv : Stable flags inv) {σ : Interp} {s : Symbol} {saved : Environment}

include hinv

theorem Stable.restore (hsaved : Restorable flags saved) (h : inv σ) :
    inv (restoreEnvironment σ saved) := by
  induction saved generalizing σ with
  | nil => exact h
  | cons x saved ih =>
      obtain ⟨hx, hsaved⟩ := List.forall_mem_cons.mp hsaved
      exact ih hsaved (hinv.setBind x.2 hx h)

/-- What the binding of a symbol leaves: the property, and a scope that can be
left again. -/
def Bound (flags : SymbolFlags) (inv : Interp → Prop)
    (r : Interp × Environment) : Prop :=
  inv r.1 ∧ Restorable flags r.2

theorem Stable.pushSymbol (c : Cell) (hsaved : Restorable flags saved)
    (h : inv σ) : Refines (Bound flags inv) (pushSymbol flags σ saved s c)
      (pushSymbol flags σ saved s c) := by
  unfold NewLispNeo.pushSymbol
  split
  · exact .error _ _
  · rename_i hs
    have hs : Bindable flags s := .inl (by simpa using hs)
    exact .value ⟨hinv.bindNew hs c h,
      List.forall_mem_cons.mpr ⟨hs, hsaved⟩⟩

theorem Stable.localBind (vars : List Cell) (hsaved : Restorable flags saved)
    (h : inv σ) : Refines (Bound flags inv) (localBind flags σ saved vars)
      (localBind flags σ saved vars) := by
  induction vars generalizing σ saved with
  | nil => exact .value ⟨h, hsaved⟩
  | cons var vars ih =>
      cases var with
      | symbol s =>
          exact (hinv.pushSymbol .nil hsaved h).bind fun r hr => ih hr.2 hr.1
      | _ => exact .error _ _

theorem Stable.letBind (inits : List (Symbol × Cell))
    (hsaved : Restorable flags saved) (h : inv σ) :
    Refines (Bound flags inv) (letBind flags σ saved inits)
      (letBind flags σ saved inits) := by
  induction inits generalizing σ saved with
  | nil => exact .value ⟨h, hsaved⟩
  | cons init inits ih =>
      exact (hinv.pushSymbol init.2 hsaved h).bind fun r hr => ih hr.2 hr.1

variable (hev : Keeps inv ev' ev)

include hev

omit hinv in
theorem Keeps.letInits (inits : List Cell) (h : inv σ) :
    KeepsOn inv (letInits ev' σ inits) (letInits ev σ inits) := by
  fun_induction NewLispNeo.letInits ev' σ inits with
  | case1 => exact .value h
  | case2 σ s init inits ih =>
      rw [NewLispNeo.letInits]
      exact (hev.param init h).bind fun r hr =>
        (ih r.2 hr).bind fun _ hr => .value hr
  | case4 =>
      rw [NewLispNeo.letInits]
      exact .value h
  | case5 σ s init inits ih =>
      rw [NewLispNeo.letInits]
      exact (hev σ init h).bind fun r hr =>
        (ih r.2 hr).bind fun _ hr => .value hr
  | _ => exact .error _ _

theorem Keeps.letnBind (inits : List Cell) (hsaved : Restorable flags saved)
    (h : inv σ) : Refines (Bound flags inv) (letnBind ev' flags σ saved inits)
      (letnBind ev flags σ saved inits) := by
  fun_induction NewLispNeo.letnBind ev' flags σ saved inits with
  | case1 => exact .value ⟨h, hsaved⟩
  | case3 σ saved s init inits _ hs ih =>
      simp only [NewLispNeo.letnBind, if_neg hs]
      exact (hev.param init h).bind fun r hr =>
        (hinv.pushSymbol r.1.cell hsaved hr).bind fun b hb =>
          ih b.1 b.2 hb.2 hb.1
  | case5 σ saved s => exact hinv.pushSymbol .nil hsaved h
  | case7 σ saved s init inits _ hs ih =>
      simp only [NewLispNeo.letnBind, if_neg hs]
      exact (hev σ init h).bind fun r hr =>
        (hinv.pushSymbol r.1.cell hsaved hr).bind fun b hb =>
          ih b.1 b.2 hb.2 hb.1
  | _ => exact .error _ _

theorem Keeps.letBody (body : List Cell) (hsaved : Restorable flags saved)
    (h : inv σ) : KeepsOn inv (letBody ev' σ saved body)
      (letBody ev σ saved body) :=
  (hev.block body h).bind fun _ hr => .value (hinv.restore hsaved hr)

omit hev hinv in
theorem restorable_nil : Restorable flags [] := by simp [Restorable]

theorem Keeps.let_ (params : List Cell) (h : inv σ) :
    KeepsOn inv (pLet ev' flags σ params) (pLet ev flags σ params) := by
  rcases params with _ | ⟨first, body⟩
  · exact .error _ _
  · cases first with
    | expression inits =>
        exact (hev.letInits inits h).bind fun r hr =>
          (hinv.letBind r.1 restorable_nil hr).bind fun b hb =>
            hev.letBody hinv body hb.2 hb.1
    | _ => exact .error _ _

theorem Keeps.letn (params : List Cell) (h : inv σ) :
    KeepsOn inv (pLetn ev' flags σ params) (pLetn ev flags σ params) := by
  rcases params with _ | ⟨first, body⟩
  · exact .error _ _
  · cases first with
    | expression inits =>
        exact (hev.letnBind hinv inits restorable_nil h).bind
          fun b hb => hev.letBody hinv body hb.2 hb.1
    | _ => exact .error _ _

theorem Keeps.local (params : List Cell) (h : inv σ) :
    KeepsOn inv (pLocal ev' flags σ params) (pLocal ev flags σ params) := by
  rcases params with _ | ⟨first, body⟩
  · exact .error _ _
  · cases first with
    | expression inits =>
        exact (hinv.localBind inits restorable_nil h).bind
          fun b hb => hev.letBody hinv body hb.2 hb.1
    | _ => exact .error _ _

theorem Keeps.setDefine (param : Cell) (h : inv σ) :
    KeepsOn inv (setDefine ev' flags σ s param)
      (setDefine ev flags σ s param) := by
  unfold NewLispNeo.setDefine
  by_cases hs : isProtected flags s = true
  · simp only [hs, if_true]
    exact .error _ _
  · simp only [hs]
    refine (hev σ param h).bind fun r hr => ?_
    exact .value (hinv.assign (.inl (by simpa using hs)) _ hr)

omit hinv in
theorem Keeps.getSymbol (params : List Cell) (h : inv σ) :
    KeepsOn inv (getSymbol ev' σ params) (getSymbol ev σ params) := by
  refine (hev.param params h).bind fun r hr => ?_
  dsimp only
  split
  · exact .value hr
  · exact .undefined _
  · exact .error _ _

theorem Keeps.set {σ : Interp} (params : List Cell) (h : inv σ) :
    KeepsOn inv (pSet ev' flags σ params) (pSet ev flags σ params) := by
  match params with
  | [] | [_] =>
      unfold pSet
      exact (hev.getSymbol _ h).bind fun _ _ => .error _ _
  | [place, param] =>
      simp only [pSet]
      exact (hev.getSymbol [place] h).bind fun r hr =>
        (hev.setDefine hinv param hr).bind fun r hr => .value hr
  | place :: param :: place' :: next =>
      simp only [pSet]
      exact (hev.getSymbol [place] h).bind fun r hr =>
        (hev.setDefine hinv param hr).bind fun r hr =>
          Keeps.set (place' :: next) hr

theorem Keeps.setf {σ : Interp} (params : List Cell) (h : inv σ) :
    KeepsOn inv (pSetf ev' flags σ params) (pSetf ev flags σ params) := by
  match params with
  | [] => exact .error _ _
  | [place] =>
      unfold pSetf
      cases place <;> exact .error _ _
  | place :: param :: next =>
      cases place with
      | symbol s =>
          simp only [pSetf]
          by_cases hit : s = itSymbol
          · simp only [hit, if_true]
            exact .undefined _
          by_cases hid : (σ.bind s).id = 0
          · simp only [hit, hid, if_true, if_false]
            exact .error _ _
          by_cases hs : isProtected flags s = true
          · simp only [hit, hid, hs, if_true, if_false]
            exact .error _ _
          simp only [hit, hid, hs, if_false]
          refine (hev _ param (hinv.pointIt _ h)).bind fun r hr => ?_
          refine .after _ fun _ _ => ?_
          have hnew := hinv.overwrite (.inl (by simpa using hs)) r.1.cell
            (hinv.clearIt hr)
          cases next with
          | nil => exact .value hnew
          | cons place' next => exact Keeps.setf (place' :: next) hnew
      | _ =>
          unfold pSetf
          exact .undefined _

omit hev in
theorem Stable.stepIteratorIndex (cellIdx : Nat) (h : inv σ) :
    Refines inv (stepIteratorIndex σ cellIdx) (stepIteratorIndex σ cellIdx) := by
  unfold NewLispNeo.stepIteratorIndex
  split
  · split
    · exact .value (hinv.overwrite listIdx_bindable _ h)
    · exact .value h
  · exact .undefined _

theorem Keeps.repeatLoop (cellIdx : Nat) (condition body : List Cell)
    (fuel : Nat) (result : Val) (h : inv σ) :
    KeepsOn inv (repeatLoop ev' cellIdx condition body fuel σ result)
      (repeatLoop ev cellIdx condition body fuel σ result) := by
  induction fuel generalizing σ result with
  | zero => exact .timeout _
  | succ fuel ih =>
      refine (hev.param condition h).bind fun r hr => ?_
      dsimp only
      split
      · exact .value hr
      · exact (hev.block body hr).bind fun r hr =>
          (hinv.stepIteratorIndex cellIdx hr).bind fun σ hσ => ih r.1 hσ

theorem Keeps.while_ (fuel : Nat) (params : List Cell) (h : inv σ) :
    KeepsOn inv (pWhile ev' fuel σ params) (pWhile ev fuel σ params) := by
  have hnew := hinv.bindNew listIdx_bindable (.long 0) h
  refine (hev.repeatLoop hinv _ _ _ fuel _ hnew).bind fun r hr => ?_
  refine .after _ fun _ _ => ?_
  exact .value (hinv.setBind _ listIdx_bindable hr)

theorem Keeps.dotimesLoop (hs : Bindable flags s) (cond : Option Cell)
    (block : List Cell) (count i : Nat) (cell : Val) (h : inv σ) :
    KeepsOn inv (dotimesLoop ev' s cond block count i σ cell)
      (dotimesLoop ev s cond block count i σ cell) := by
  induction count generalizing σ i cell with
  | zero => exact .value h
  | succ count ih =>
      have hnew := hinv.assign hs (.long (BitVec.ofNat 64 i)) h
      cases cond with
      | none => exact (hev.block block hnew).bind fun r hr => ih (i + 1) r.1 hr
      | some test =>
          refine (hev _ test hnew).bind fun r hr => ?_
          dsimp only
          split
          · exact (hev.block block hr).bind fun r hr => ih (i + 1) r.1 hr
          · exact .value hr

theorem Keeps.dotimes (rt : Runtime) (params : List Cell) (h : inv σ) :
    KeepsOn inv (pDotimes rt ev' flags σ params)
      (pDotimes rt ev flags σ params) := by
  rcases params with _ | ⟨first, block⟩
  · exact .error _ _
  cases first with
  | expression header =>
      rcases header with _ | ⟨head, header⟩
      · exact .error _ _
      cases head with
      | symbol s =>
          simp only [pDotimes]
          by_cases hs : isProtected flags s = true
          · simp only [hs, if_true]
            exact .error _ _
          simp only [hs]
          have hs : Bindable flags s := .inl (by simpa using hs)
          have hnew := hinv.bindNil hs h
          rcases header with _ | ⟨a, _ | ⟨b, _ | ⟨c, rest⟩⟩⟩
          · refine (hev.param [] hnew).bind fun r hr => ?_
            exact .error _ _
          · refine (hev.param [a] hnew).bind fun r hr => ?_
            refine .after _ fun n _ => ?_
            refine (hev.dotimesLoop hinv hs _ _ _ _ _ hr).bind fun r hr => ?_
            exact .after _ fun _ _ => .value (hinv.setBind _ hs hr)
          · refine (hev.param [a, b] hnew).bind fun r hr => ?_
            refine .after _ fun n _ => ?_
            refine (hev.dotimesLoop hinv hs _ _ _ _ _ hr).bind fun r hr => ?_
            exact .after _ fun _ _ => .value (hinv.setBind _ hs hr)
          · exact .undefined _
      | _ => exact .error _ _
  | _ => exact .error _ _

theorem Keeps.bindParams (locals result : List Cell)
    (hsaved : Restorable flags saved) (h : inv σ) :
    Refines (fun r => inv r.1 ∧ Restorable flags r.2.1)
      (bindParams ev' flags σ saved locals result)
      (bindParams ev flags σ saved locals result) := by
  fun_induction NewLispNeo.bindParams ev' flags σ saved locals result with
  | case1 σ saved s locals result ih =>
      simp only [NewLispNeo.bindParams]
      exact (hinv.pushSymbol _ hsaved h).bind fun b hb => ih b.1 b.2 hb.2 hb.1
  | case2 σ saved s value locals ih =>
      simp only [NewLispNeo.bindParams]
      exact (hev.param value h).bind fun r hr =>
        (hinv.pushSymbol _ hsaved hr).bind fun b hb => ih b.1 b.2 hb.2 hb.1
  | case3 σ saved s value locals result hne ih =>
      simp only [NewLispNeo.bindParams]
      exact (hinv.pushSymbol _ hsaved h).bind fun b hb => ih b.1 b.2 hb.2 hb.1
  | case4 locals σ saved result h₁ h₂ h₃ =>
      rw [NewLispNeo.bindParams]
      · exact .value ⟨h, hsaved⟩
      all_goals assumption

theorem Keeps.lambda (localLst arg : List Cell) (h : inv σ) :
    KeepsOn inv (evaluateLambda ev' flags σ localLst arg)
      (evaluateLambda ev flags σ localLst arg) := by
  rcases localLst with _ | ⟨first, body⟩
  · exact .error _ _
  · cases first with
    | expression locals =>
        refine (hev.args arg h).bind fun r hr => ?_
        refine (hev.bindParams hinv locals r.1 restorable_nil hr).bind
          fun b hb => ?_
        refine (hev.block body (hinv.bindNew args_bindable _ hb.1)).bind
          fun r hr => .value (hinv.restore ?_ hr)
        exact List.forall_mem_cons.mpr ⟨args_bindable, hb.2⟩
    | _ => exact .error _ _

omit hinv in
theorem Keeps.bigintLoop (rt : Runtime) (op : ArithOp) (result : Val)
    (params : List Cell) (h : inv σ) :
    KeepsOn inv (bigintLoop rt ev' op σ result params)
      (bigintLoop rt ev op σ result params) := by
  induction params generalizing σ result with
  | nil => exact .value h
  | cons param params ih =>
      refine (hev σ param h).bind fun r hr => .after _ fun held _ => ?_
      split
      · split
        · exact .after _ fun y _ => .after _ fun z _ => ih _ hr
        · exact .undefined _
      · exact .undefined _

omit hinv in
theorem Keeps.integerLoop (rt : Runtime) (op : ArithOp) (result : Word)
    (params : List Cell) (h : inv σ) :
    KeepsOn inv (integerLoop rt ev' op σ result params)
      (integerLoop rt ev op σ result params) := by
  induction params generalizing σ result with
  | nil => exact .value h
  | cons param params ih =>
      exact (hev σ param h).bind fun r hr =>
        .after _ fun n _ => .after _ fun x _ => ih x hr

omit hinv in
theorem Keeps.arithmetikOp (rt : Runtime) (op : ArithOp) (params : List Cell)
    (h : inv σ) : KeepsOn inv (arithmetikOp rt ev' op σ params)
      (arithmetikOp rt ev op σ params) := by
  rcases params with _ | ⟨param, params⟩
  · cases op with
    | add | multiply => exact .value h
    | _ => exact .error _ _
  · refine (hev σ param h).bind fun r hr => ?_
    dsimp only
    split
    · exact .value hr
    · exact hev.bigintLoop rt op _ _ hr
    · exact .after _ fun x _ => .value hr
    · exact .after _ fun x _ => hev.integerLoop rt op x _ hr

omit hinv in
theorem Keeps.compareLoop (rt : Runtime) (op : CompareOp) (left : Val)
    (params : List Cell) (h : inv σ) :
    KeepsOn inv (compareLoop rt ev' op σ left params)
      (compareLoop rt ev op σ left params) := by
  induction params generalizing σ left with
  | nil => exact .value h
  | cons param params ih =>
      refine (hev σ param h).bind fun r hr =>
        .after _ fun c _ => .after _ fun n _ => ?_
      cases compareStop op n with
      | none => exact ih r.1 hr
      | some c => exact .value hr

omit hinv in
theorem Keeps.compareOp (rt : Runtime) (op : CompareOp) (params : List Cell)
    (h : inv σ) : KeepsOn inv (compareOp rt ev' op σ params)
      (compareOp rt ev op σ params) := by
  rcases params with _ | ⟨param, params⟩
  · exact .value h
  · refine (hev σ param h).bind fun r hr => ?_
    rcases params with _ | ⟨param, params⟩
    · dsimp only
      split
      · exact .value hr
      · exact .after _ fun _ _ => .value hr
    · exact hev.compareLoop rt op r.1 _ hr

theorem Keeps.incDecF (rt : Runtime) (type : Bool) (params : List Cell)
    (h : inv σ) : KeepsOn inv (incDecF rt flags ev' type σ params)
      (incDecF rt flags ev type σ params) := by
  rcases params with _ | ⟨place, delta⟩
  · exact .undefined _
  cases place with
  | symbol s =>
      simp only [NewLispNeo.incDecF]
      split
      · exact .undefined _
      split
      · exact .error _ _
      · rename_i hit hs
        have hs : Bindable flags s := .inl (by simpa using hs)
        -- the place is read, then the delta, then the place is overwritten
        split
        · simp only [value_bind]
          split
          · exact .error _ _
          cases delta with
          | nil => exact .after _ fun _ _ => .value (hinv.overwrite hs _ h)
          | cons param _ =>
              exact (hev σ param h).bind fun r hr => .after _ fun y _ =>
                .after _ fun _ _ => .value (hinv.overwrite hs _ hr)
        · simp only [value_bind]
          refine (hev σ _ h).bind fun r hr => .after _ fun x _ => ?_
          split
          · exact .error _ _
          cases delta with
          | nil => exact .after _ fun _ _ => .value (hinv.overwrite hs _ hr)
          | cons param _ =>
              exact (hev r.2 param hr).bind fun r hr => .after _ fun y _ =>
                .after _ fun _ _ => .value (hinv.overwrite hs _ hr)
  | _ => exact .undefined _

theorem Keeps.callPrimitive (rt : Runtime) (fuel : Nat) (p : Primitive)
    (params : List Cell) (h : inv σ) :
    KeepsOn inv (callPrimitive rt flags ev' fuel p σ params)
      (callPrimitive rt flags ev fuel p σ params) := by
  cases p with
  | if_ =>
      exact (hev.param params h).bind fun r hr =>
        (hev.ifLoop _ _ (hinv.pointIt r.1 hr)).bind fun r hr =>
          .value (hinv.clearIt hr)
  | ifNot => exact hev.ifNot params h
  | when => exact hev.when params h
  | «unless» => exact hev.unless params h
  | condition => exact hev.conditionLoop params Val.nilCell h
  | and => exact hev.andLoop params _ h
  | or => exact hev.orLoop params Val.nilCell h
  | evalBlock => exact hev.block params h
  | while_ => exact hev.while_ hinv fuel params h
  | dotimes => exact hev.dotimes hinv rt params h
  | let_ => exact hev.let_ hinv params h
  | letn => exact hev.letn hinv params h
  | local_ => exact hev.local hinv params h
  | set => exact hev.set hinv params h
  | setf => exact hev.setf hinv params h
  | add | subtract | multiply | divide | modulo =>
      exact (hev.arithmetikOp rt _ params h).bind fun r hr => .value hr
  | less | greater | lessEqual | greaterEqual | equal | notEqual =>
      exact (hev.compareOp rt _ params h).bind fun r hr => .value hr
  | incrementF | decrementF =>
      exact (hev.incDecF hinv rt _ params h).bind fun r hr => .value hr
  | other name => exact .undefined _

end

end NewLispNeo
