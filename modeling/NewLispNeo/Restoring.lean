/-
Every evaluation leaves the environment stack and the contents of symbols as they
were, unless a form is left in the middle of its bindings.
-/
import NewLispNeo.BindingTriples

namespace NewLispNeo.EnvStack

open Bindings EnvM

variable {α β : Type} {S : Settings} {ev : EnvCell → EnvM EnvCell} {σ σ' : EnvState}
  {pre ss ts : List Symbol}

section Forms

variable (hev : ∀ cell, Keeps (ev cell))

include hev

section Parameters

theorem keeps_evaluateParam (params : List EnvCell) : Keeps (evaluateParam ev params) := hev _

theorem keeps_evaluateBlock (result : EnvCell) (cells : List EnvCell) :
    Keeps (evaluateBlock ev result cells) := by
  induction cells generalizing result with
  | nil => exact .pure result
  | cons cell cells ih => exact (hev cell).bind fun result => ih result

theorem keeps_evaluateArgs (args : List EnvCell) : Keeps (evaluateArgs ev args) := by
  induction args with
  | nil => exact .pure []
  | cons arg args ih => exact (hev arg).bind fun value => ih.bind fun values => .pure _

theorem keeps_getFlag (params : List EnvCell) : Keeps (getFlag ev params) :=
  (keeps_evaluateParam hev params).bind fun _ => .pure _

omit hev in
theorem keeps_bigintToInt64 (contents : Bigint) : Keeps (bigintToInt64 S contents) := by
  unfold bigintToInt64
  refine Keeps.ite ?_ (.pure _)
  exact (keeps_errorProcExt _ _).bind fun _ => .pure _

theorem keeps_getInteger64 (params : List EnvCell) : Keeps (getInteger64 S ev params) := by
  refine (keeps_evaluateParam hev params).bind fun cell => ?_
  cases cell
  case long => exact .pure _
  case float => exact .pure _
  case bigint contents => exact (keeps_bigintToInt64 contents).bind fun _ => .pure _
  all_goals exact (keeps_errorProcArgs _ _).bind fun _ => .pure _

theorem keeps_getFloat (params : List EnvCell) : Keeps (getFloat S ev params) := by
  refine (keeps_evaluateParam hev params).bind fun cell => ?_
  cases cell
  case long => exact .pure _
  case float => exact .pure _
  case bigint => exact .pure _
  all_goals exact (keeps_errorProcArgs _ _).bind fun _ => .pure _

theorem keeps_getEvalDefault (params : List EnvCell) : Keeps (getEvalDefault ev params) := by
  refine (keeps_evaluateParam hev params).bind fun cell => ?_
  cases cell
  case context => exact keeps_contents _
  all_goals exact .pure _

omit hev in
theorem keeps_getDynamicSymbol (context : Symbol) (name : String) :
    Keeps (getDynamicSymbol S context name) := by
  refine (keeps_contents context).bind fun cell => ?_
  cases cell
  case context => exact .pure _
  all_goals exact keeps_fatalError _ _

theorem keeps_getSymbol (params : List EnvCell) : Keeps (getSymbol S ev params) := by
  refine (keeps_evaluateParam hev params).bind fun cell => ?_
  cases cell
  case symbol => exact .pure _
  case dynSymbol => exact keeps_getDynamicSymbol _ _
  all_goals exact (keeps_errorProcArgs _ _).bind fun _ => .pure _

theorem keeps_getString (params : List EnvCell) : Keeps (getString S ev params) := by
  refine (keeps_getEvalDefault hev params).bind fun cell => ?_
  cases cell
  case string => exact .pure _
  all_goals exact (keeps_errorProcArgs _ _).bind fun _ => .pure _

omit hev in
theorem keeps_checkContext (params : List EnvCell) (context : Symbol) :
    Keeps (checkContext S params context) := by
  refine (keeps_contents context).bind fun cell => ?_
  cases cell
  case context => exact .pure _
  all_goals exact (keeps_errorProcExt _ _).bind fun _ => keeps_undefined

theorem keeps_getContext (params : List EnvCell) : Keeps (getContext S ev params) := by
  refine (keeps_evaluateParam hev params).bind fun cell => ?_
  cases cell
  case context => exact keeps_checkContext _ _
  case symbol => exact keeps_checkContext _ _
  all_goals exact (keeps_errorProcArgs _ _).bind fun _ => keeps_undefined

end Parameters

section Let

omit hev in
/-- The bindings a form has made before its body, or none when it has been left. -/
def Leaves (pre : List Symbol) (count : α → Nat) : Option α → List Symbol → Prop
  | none, ss => ss = pre
  | some a, ss => ∃ ts, ts.length = count a ∧ ss = ts ++ pre

omit hev in
theorem binds_letLocal (ts : List Symbol) (inits : List EnvCell) :
    Binds (ts ++ pre) (letLocal S inits ts.length) (Leaves pre id) := by
  induction inits generalizing ts with
  | nil => exact .pure ⟨ts, rfl, rfl⟩
  | cons init inits ih =>
      cases init
      case symbol s =>
        refine Binds.after (keeps_protected s) fun locked => ?_
        split
        · exact binds_leave ts _ _ rfl
        · exact binds_push_set s .nil (ih (s :: ts))
      all_goals exact binds_leave ts _ _ rfl

theorem binds_letNest (ts : List Symbol) (inits : List (Symbol × EnvCell)) :
    Binds (ts ++ pre) (letNest S ev inits ts.length) (Leaves pre id) := by
  induction inits generalizing ts with
  | nil => exact .pure ⟨ts, rfl, rfl⟩
  | cons init inits ih =>
      obtain ⟨s, value⟩ := init
      refine Binds.after (keeps_protected s) fun locked => ?_
      split
      · exact binds_leave ts _ _ rfl
      · refine Binds.after (hev value) fun value => ?_
        exact binds_push_set s value (ih (s :: ts))

omit hev in
theorem binds_letBind (ts : List Symbol) (expanding : Bool)
    (inits : List (Symbol × EnvCell)) (body : List EnvCell) :
    Binds (ts ++ pre) (letBind S expanding inits body ts.length) (Leaves pre Prod.snd) := by
  induction inits generalizing ts body with
  | nil => exact .pure ⟨ts, rfl, rfl⟩
  | cons init inits ih =>
      obtain ⟨s, value⟩ := init
      refine Binds.after (keeps_protected s) fun locked => ?_
      split
      · exact binds_leave ts _ _ rfl
      · refine binds_push_set s value ?_
        refine Binds.after keeps_get fun σ => ?_
        exact ih (s :: ts) _

theorem binds_letBindings (inits body : List EnvCell) (type : LetType) :
    Binds pre (letBindings S ev inits body type) (Leaves pre Prod.snd) := by
  cases type with
  | std | expand =>
      refine Binds.after (keeps_evaluateArgs hev _) fun values => ?_
      split
      · exact binds_leave [] _ _ rfl
      · exact binds_letBind [] _ _ _
  | local_ =>
      refine (binds_letLocal [] inits).bind fun bound ss hss => ?_
      cases bound with
      | none => exact .pure hss
      | some localCount => exact .pure hss
  | nest =>
      refine (binds_letNest hev [] (letInits inits).1).bind fun bound ss hss => ?_
      cases bound with
      | none => exact .pure hss
      | some localCount =>
          obtain ⟨ts, rfl, rfl⟩ := hss
          dsimp only [id]
          split
          · exact binds_leave ts _ _ rfl
          · exact .pure ⟨ts, rfl, rfl⟩

theorem binds_evaluateLocals {bound : Option (List EnvCell × Nat)}
    (h : Leaves pre Prod.snd bound ss) :
    Binds ss (evaluateLocals ev bound) fun _ us => us = pre := by
  cases bound with
  | none => exact .pure h
  | some locals =>
      obtain ⟨body, localCount⟩ := locals
      obtain ⟨ts, rfl, rfl⟩ := h
      refine Binds.after (keeps_evaluateBlock hev .nil body) fun result => ?_
      refine binds_restoreEnvironment.bind fun _ us hus => ?_
      exact .pure hus

theorem keeps_let (params : List EnvCell) (type : LetType) :
    Keeps (let_ S ev params type) := by
  unfold let_
  split
  · intro pre
    refine (binds_letBindings hev _ _ type).bind fun bound ss hss => ?_
    exact binds_evaluateLocals hev hss
  · exact keeps_errorProcExt _ _

end Let

section Lambda

theorem keeps_defaultArgument (isMacro : Bool) (local_ : EnvCell) (default args : List EnvCell) :
    Keeps (defaultArgument ev isMacro local_ default args) := by
  unfold defaultArgument
  split
  · exact (keeps_evaluateParam hev default).bind fun value => .pure _
  · exact .pure _

theorem binds_bindParameters (ts : List Symbol) (isMacro : Bool) (locals args : List EnvCell) :
    Binds (ts ++ pre) (bindParameters S ev isMacro locals args ts.length)
      (Leaves pre Prod.snd) := by
  induction locals generalizing ts args with
  | nil => exact .pure ⟨ts, rfl, rfl⟩
  | cons local_ locals ih =>
      unfold bindParameters
      split
      · exact .pure ⟨ts, rfl, rfl⟩
      · rename_i s default _
        refine Binds.after (keeps_defaultArgument hev isMacro local_ default args) fun args => ?_
        refine Binds.after (keeps_protected s) fun locked => ?_
        split
        · exact binds_leave ts _ _ rfl
        · exact binds_push_set s _ (ih (s :: ts) _)

omit hev in
theorem binds_bindArgs {bound : Option (List EnvCell × Nat)} (h : Leaves pre Prod.snd bound ss) :
    Binds ss (bindArgs S bound) (Leaves pre id) := by
  cases bound with
  | none => exact .pure h
  | some locals =>
      obtain ⟨args, localCount⟩ := locals
      obtain ⟨ts, rfl, rfl⟩ := h
      exact binds_push_set argsSymbol _ (.pure ⟨argsSymbol :: ts, rfl, rfl⟩)

theorem keeps_evaluateWith (isMacro : Bool) (locals body args : List EnvCell) :
    Keeps (evaluateWith S ev isMacro locals body args) := by
  intro pre
  refine (binds_bindParameters hev [] isMacro locals args).bind fun bound ss hss => ?_
  refine (binds_bindArgs hss).bind fun bound ss hss => ?_
  refine binds_evaluateLocals hev ?_
  cases bound with
  | none => exact hss
  | some localCount => exact hss

theorem keeps_evaluateLambda (lambda args : List EnvCell) :
    Keeps (evaluateLambda S ev lambda args) := by
  refine keeps_get.bind fun σ => Keeps.ite (keeps_errorProcArgs _ _) ?_
  split
  · exact (keeps_evaluateArgs hev args).bind fun values => keeps_evaluateWith hev _ _ _ _
  · exact keeps_errorProcExt _ _

theorem keeps_evaluateLambdaMacro (fexpr args : List EnvCell) :
    Keeps (evaluateLambdaMacro S ev fexpr args) := by
  refine keeps_get.bind fun σ => Keeps.ite (keeps_errorProcArgs _ _) ?_
  split
  · exact keeps_evaluateWith hev _ _ _ _
  · exact keeps_errorProcExt _ _

end Lambda

section Loops

omit hev in
/-- The loop symbol is bound, unless there is none or a symbol has been refused. -/
def Pushed (pre : List Symbol) (symbol : Option Symbol) (ss : List Symbol) : Prop :=
  ss = symbol.toList ++ pre

omit hev in
theorem binds_getPushSymbolParam (params : List EnvCell) :
    Binds pre (getPushSymbolParam S params) fun result ss =>
      Pushed pre result.1 ss ∧ (result.1 = none → result.2 = []) := by
  unfold getPushSymbolParam
  split
  · rename_i s rest _
    refine Binds.after (keeps_protected s) fun locked => ?_
    split
    · refine Binds.after (keeps_errorProcExt _ _) fun _ => ?_
      refine (binds_abandon (s :: pre)).bind fun _ ss hss => ?_
      exact .pure ⟨hss, nofun⟩
    · exact binds_push_set s .nil (.pure ⟨rfl, nofun⟩)
  · exact Binds.after (keeps_errorProcExt _ _) fun _ => .pure ⟨rfl, fun _ => rfl⟩
  · exact Binds.after (keeps_errorProcExt _ _) fun _ => .pure ⟨rfl, fun _ => rfl⟩

omit hev in
theorem binds_setLoopSymbol {symbol : Option Symbol} (value : EnvCell)
    (h : ∀ s ∈ symbol, s ∈ pre) :
    Binds pre (setLoopSymbol symbol value) fun _ ss => ss = pre := by
  cases symbol with
  | none => exact binds_undefined
  | some s => exact binds_setContents (h s rfl) value

omit hev in
theorem binds_popLoopSymbol {symbol : Option Symbol} (h : Pushed pre symbol ss) :
    Binds ss (popLoopSymbol symbol) fun _ ts => ts = pre := by
  cases symbol with
  | none => exact binds_undefined
  | some s =>
      subst h
      exact binds_popEnvironment s

omit hev in
theorem binds_initIteratorIndex :
    Binds pre (initIteratorIndex S) fun _ ss => ss = listIdxSymbol :: pre :=
  (binds_pushEnvironment listIdxSymbol).bind fun _ ss hss => by
    subst hss
    exact binds_setContents List.mem_cons_self _

omit hev in
theorem binds_recoverIteratorIndex :
    Binds (listIdxSymbol :: pre) recoverIteratorIndex fun _ ss => ss = pre :=
  (binds_popEnvironment listIdxSymbol).bind fun _ _ hss => .pure hss

omit hev in
theorem binds_nextIteratorIndex (h : listIdxSymbol ∈ pre) :
    Binds pre nextIteratorIndex fun _ ss => ss = pre := by
  refine Binds.after (keeps_contents _) fun cell => ?_
  cases cell
  case long => exact binds_setContents h _
  all_goals exact .pure rfl

omit hev in
/-- The loops with the iterator index bound around them. -/
theorem keeps_indexed {m : EnvM α} {g : α → EnvM β}
    (hm : ∀ pre, Binds (listIdxSymbol :: pre) m fun _ ss => ss = listIdxSymbol :: pre)
    (hg : ∀ a, Keeps (g a)) :
    Keeps (do
      initIteratorIndex S
      let a ← m
      recoverIteratorIndex
      g a) := by
  intro pre
  refine binds_initIteratorIndex.bind fun _ ss hss => ?_
  subst hss
  refine (hm pre).bind fun a ss hss => ?_
  subst hss
  refine binds_recoverIteratorIndex.bind fun _ ss hss => ?_
  subst hss
  exact hg a ss

theorem binds_loopFrom {symbol : Option Symbol} (hsymbol : ∀ s ∈ symbol, s ∈ pre)
    (next : Int → EnvCell) (forFlag : Bool) (stepCnt : Int) (cond : Option EnvCell)
    (block : List EnvCell) (fuel : Nat) (i : Int) (cell : EnvCell) :
    Binds pre (loopFrom ev symbol next forFlag stepCnt cond block fuel i cell)
      fun _ ss => ss = pre := by
  induction fuel generalizing i cell with
  | zero => exact keeps_running pre
  | succ fuel ih =>
      unfold loopFrom
      split
      · exact .pure rfl
      · refine (binds_setLoopSymbol _ hsymbol).bind fun _ ss hss => ?_
        subst hss
        have hrest : ∀ stop : EnvCell, Binds ss (if !stop.isNil then pure stop else do
            let cell ← evaluateBlock ev .nil block
            loopFrom ev symbol next forFlag stepCnt cond block fuel (i + 1) cell)
            fun _ ts => ts = ss := by
          intro stop
          split
          · exact .pure rfl
          · exact Binds.after (keeps_evaluateBlock hev _ _) fun cell => ih _ cell
        cases cond with
        | none => exact hrest .nil
        | some cond => exact Binds.after (hev cond) hrest

theorem binds_loopSteps {symbol : Option Symbol} {params : List EnvCell}
    (hpushed : Pushed pre symbol ss) (hnone : symbol = none → params = []) (forFlag : Bool) :
    Binds ss (loopSteps S ev params forFlag) fun steps ts =>
      match steps with
      | none => ts = pre
      | some _ => ts = ss := by
  unfold loopSteps
  split
  · split
    · refine Binds.after (keeps_getInteger64 hev params) fun ⟨fromInt, params⟩ => ?_
      exact Binds.after (keeps_getInteger64 hev params) fun ⟨toInt, rest⟩ => .pure rfl
    · exact Binds.after (keeps_getInteger64 hev params) fun ⟨stepCnt, cond⟩ => .pure rfl
  · rename_i hlength
    refine Binds.after (keeps_getFloat hev params) fun ⟨fromFlt, params₁⟩ => ?_
    refine Binds.after (keeps_getFloat hev params₁) fun ⟨toFlt, params₂⟩ => ?_
    refine Binds.after (keeps_getFloat hev params₂) fun ⟨step, cond⟩ => ?_
    dsimp only
    split
    · cases symbol with
      | none =>
          rw [hnone rfl] at hlength
          exact absurd (Nat.zero_le 2) hlength
      | some s =>
          subst hpushed
          exact binds_leave [s] _ _ rfl
    · exact .pure rfl

theorem keeps_loop (fuel : Nat) (params : List EnvCell) (forFlag : Bool) :
    Keeps (loop S ev fuel params forFlag) := by
  intro pre
  refine (binds_getPushSymbolParam params).bind fun ⟨symbol, limits⟩ ss hss => ?_
  obtain ⟨hpushed, hnone⟩ := hss
  refine (binds_loopSteps hev hpushed hnone forFlag).bind fun steps ts hts => ?_
  cases steps with
  | none => exact .pure hts
  | some steps =>
      obtain ⟨stepCnt, next, cond⟩ := steps
      obtain rfl : ts = ss := hts
      have hsymbol : ∀ s ∈ symbol, s ∈ ts := by
        intro s hs
        rw [hpushed]
        exact List.mem_append_left _ (by simpa using hs)
      refine (binds_loopFrom hev hsymbol next forFlag stepCnt cond params.tail fuel 0 .nil).bind
        fun cell us hus => ?_
      subst hus
      refine (binds_popLoopSymbol hpushed).bind fun s us hus => ?_
      subst hus
      exact Binds.after (keeps_modify (fun _ => rfl) fun _ => rfl) fun _ => .pure rfl

theorem binds_dolistFrom {symbol : Option Symbol} (hsymbol : ∀ s ∈ symbol, s ∈ pre)
    (hindex : listIdxSymbol ∈ pre) (type : DoType) (cond : Option EnvCell)
    (block list : List EnvCell) (cell : EnvCell) :
    Binds pre (dolistFrom ev symbol type cond block list cell) fun _ ss => ss = pre := by
  induction list generalizing cell with
  | nil => exact .pure rfl
  | cons item list ih =>
      refine (binds_setLoopSymbol _ hsymbol).bind fun _ ss hss => ?_
      subst hss
      split
      · exact ih .nil
      · have hrest : ∀ stop : EnvCell, Binds ss (if !stop.isNil then pure stop else do
            let cell ← evaluateBlock ev .nil block
            nextIteratorIndex
            dolistFrom ev symbol type cond block list cell) fun _ ts => ts = ss := by
          intro stop
          split
          · exact .pure rfl
          · refine Binds.after (keeps_evaluateBlock hev _ _) fun cell => ?_
            refine (binds_nextIteratorIndex hindex).bind fun _ ts hts => ?_
            subst hts
            exact ih cell
        split
        · exact hrest .nil
        · exact hrest .nil
        · exact Binds.after (hev _) hrest

theorem binds_worklist (pre : List Symbol) (params : List EnvCell) (type : DoType) :
    Binds ss (worklist S ev params type) fun work ts =>
      match work with
      | none => ts = pre
      | some _ => ts = ss := by
  cases type with
  | list =>
      refine Binds.after (keeps_getEvalDefault hev params) fun list => ?_
      split
      · exact .pure rfl
      · exact binds_leave_bound (Nat.succ_ne_zero 1) _ _ rfl
  | tree =>
      refine Binds.after (keeps_getContext hev params) fun context => ?_
      refine Binds.after (keeps_getFlag hev _) fun flag => ?_
      exact Binds.after keeps_get fun σ => .pure rfl
  | args => exact Binds.after (keeps_contents _) fun args => .pure rfl
  | string => exact Binds.after (keeps_getString hev params) fun ⟨str, rest⟩ => .pure rfl

theorem keeps_dolist (params : List EnvCell) (type : DoType) :
    Keeps (dolist S ev params type) := by
  intro pre
  refine (binds_getPushSymbolParam params).bind fun ⟨symbol, limits⟩ ss hss => ?_
  refine binds_initIteratorIndex.bind fun _ ts hts => ?_
  subst hts
  refine (binds_worklist hev pre limits type).bind fun work ts hts => ?_
  cases work with
  | none => exact .pure hts
  | some work =>
      obtain ⟨list, cond⟩ := work
      obtain rfl : ts = listIdxSymbol :: ss := hts
      have hsymbol : ∀ s ∈ symbol, s ∈ listIdxSymbol :: ss := by
        intro s hs
        rw [hss.1]
        exact List.mem_cons_of_mem _ (List.mem_append_left _ (by simpa using hs))
      refine (binds_dolistFrom hev hsymbol List.mem_cons_self type cond params.tail list
        _).bind fun cell us hus => ?_
      subst hus
      refine binds_recoverIteratorIndex.bind fun _ us hus => ?_
      subst hus
      refine (binds_popLoopSymbol hss.1).bind fun s us hus => ?_
      exact .pure hus

theorem binds_repeatFrom (hindex : listIdxSymbol ∈ pre) (params : List EnvCell)
    (type : RepeatType) (fuel : Nat) (result : EnvCell) :
    Binds pre (repeatFrom ev params type fuel result) fun _ ss => ss = pre := by
  induction fuel generalizing result with
  | zero => exact keeps_running pre
  | succ fuel ih =>
      have hnext : ∀ result, Binds pre (do
          nextIteratorIndex
          repeatFrom ev params type fuel result) fun _ ss => ss = pre := by
        intro result
        refine (binds_nextIteratorIndex hindex).bind fun _ ss hss => ?_
        subst hss
        exact ih result
      cases type
      case while_ | until_ =>
        refine Binds.after (keeps_evaluateParam hev params) fun cell => ?_
        split
        · exact .pure rfl
        · exact Binds.after (keeps_evaluateBlock hev _ _) hnext
      case doWhile | doUntil =>
        refine Binds.after (keeps_evaluateBlock hev _ _) fun result => ?_
        refine Binds.after (keeps_evaluateParam hev params) fun cell => ?_
        split
        · exact .pure rfl
        · exact hnext result

theorem keeps_repeat (fuel : Nat) (params : List EnvCell) (type : RepeatType) :
    Keeps (repeat_ S ev fuel params type) :=
  keeps_indexed (fun _ => binds_repeatFrom hev List.mem_cons_self params type fuel .nil)
    fun result => .pure result

theorem keeps_mapLists (params : List EnvCell) : Keeps (mapLists S ev params) := by
  induction params with
  | nil => exact .pure _
  | cons param params ih =>
      refine (keeps_getEvalDefault hev [param]).bind fun cell => ?_
      split
      · exact fun ss => binds_leave [] _ _ rfl
      · exact ih.bind fun lists => .pure _

theorem binds_mapFrom (hindex : listIdxSymbol ∈ pre) (function : EnvCell)
    (cells : List EnvCell) (lists : List (List EnvCell)) (results : List EnvCell) :
    Binds pre (mapFrom ev function cells lists results) fun _ ss => ss = pre := by
  induction cells generalizing lists results with
  | nil => exact .pure rfl
  | cons cell cells ih =>
      refine Binds.after (hev _) fun value => ?_
      refine (binds_nextIteratorIndex hindex).bind fun _ ss hss => ?_
      subst hss
      exact ih _ _

theorem keeps_map (params : List EnvCell) : Keeps (pMap S ev params) := by
  refine (keeps_evaluateParam hev params).bind fun function => ?_
  refine (keeps_mapLists hev _).bind fun lists => ?_
  cases lists with
  | none => exact .pure _
  | some lists =>
      exact keeps_indexed (fun _ => binds_mapFrom hev List.mem_cons_self function _ _ [])
        fun results => .pure _

theorem binds_seriesFrom (hindex : listIdxSymbol ∈ pre) (function : EnvCell) (count : Nat)
    (cell : EnvCell) (series : List EnvCell) :
    Binds pre (seriesFrom ev function count cell series) fun _ ss => ss = pre := by
  induction count generalizing cell series with
  | zero => exact .pure rfl
  | succ count ih =>
      refine Binds.after (hev _) fun cell => ?_
      refine (binds_nextIteratorIndex hindex).bind fun _ ss hss => ?_
      subst hss
      exact ih cell _

theorem keeps_series (params : List EnvCell) : Keeps (pSeries S ev params) := by
  refine (keeps_evaluateParam hev params).bind fun cell => ?_
  refine (keeps_evaluateParam hev _).bind fun function => ?_
  refine (keeps_getInteger64 hev _).bind fun ⟨count, rest⟩ => ?_
  refine Keeps.ite (.pure _) (Keeps.ite ?_ ?_)
  · exact Keeps.ite (keeps_errorProcExt _ _) (.pure _)
  · exact keeps_indexed (fun _ => binds_seriesFrom hev List.mem_cons_self function _ cell _)
      fun series => .pure _

theorem keeps_expandFrom (evalFlag : Bool) (list : List EnvCell) (expr : EnvCell) :
    Keeps (expandFrom S ev evalFlag list expr) := by
  induction list generalizing expr with
  | nil => exact .pure _
  | cons item list ih =>
      unfold expandFrom
      split
      · contradiction
      · rename_i expr _ _ s values rest heq
        obtain ⟨-, rfl⟩ := List.cons.inj heq
        intro pre
        refine (binds_pushEnvironment s).bind fun _ ss hss => ?_
        subst hss
        have hrest : ∀ value, Binds (s :: pre) (do
            setContents s value
            let σ ← get
            let _ ← popEnvironment
            expandFrom S ev evalFlag list (expand σ.env.contents (some s) expr))
            fun _ ss => ss = pre := by
          intro value
          refine (binds_setContents List.mem_cons_self value).bind fun _ ss hss => ?_
          subst hss
          refine Binds.after keeps_get fun σ => ?_
          refine (binds_popEnvironment s).bind fun _ ss hss => ?_
          subst hss
          exact ih _ ss
        split
        · exact Binds.after (keeps_evaluateParam hev values) hrest
        · exact Binds.after (Keeps.pure _) hrest
      · exact fun ss => binds_leave [] _ _ rfl
      · exact fun ss => binds_leave [] _ _ rfl

theorem keeps_expandSymbols (params : List EnvCell) (expr : EnvCell) :
    Keeps (expandSymbols S ev params expr) := by
  induction params generalizing expr with
  | nil => exact .pure _
  | cons param params ih =>
      refine (hev param).bind fun cell => ?_
      cases cell
      case symbol s => exact keeps_get.bind fun σ => ih _
      case dynSymbol context name =>
        refine (keeps_getDynamicSymbol context name).bind fun s => ?_
        exact keeps_get.bind fun σ => ih _
      case expression list =>
        refine (keeps_getFlag hev params).bind fun evalFlag => ?_
        exact (keeps_expandFrom hev evalFlag list expr).bind fun expanded => .pure _
      all_goals exact keeps_errorProcExt _ _

theorem keeps_expand (params : List EnvCell) : Keeps (pExpand S ev params) := by
  refine (keeps_getEvalDefault hev params).bind fun expr => Keeps.ite ?_ ?_
  · exact keeps_get.bind fun σ => .pure _
  · exact keeps_expandSymbols hev _ expr

end Loops

section Handlers

omit hev in
theorem keeps_handling {m : EnvM EnvCell} {handler : Jump → EnvM EnvCell} (hm : Keeps m)
    (hhandler : ∀ x, Keeps (handler x)) : Keeps (handling m handler) := by
  refine Keeps.of_self fun σ => ?_
  have hends := hm.ends σ
  unfold handling
  cases hmσ : m σ with
  | value a σ' =>
      rw [hmσ] at hends
      exact hends
  | raised x σ' =>
      rw [hmσ] at hends
      obtain ⟨ss, hbound⟩ := hends
      have hrecovered : Bound σ [] { σ' with
          env := σ'.env.recover σ.height
          recursionCount := σ.recursionCount } := hbound.recover.same rfl rfl
      have hhandled := hhandler x [] σ _ hrecovered
      revert hhandled
      dsimp only
      cases handler x _ with
      | value a σ'' =>
          rintro ⟨ts, rfl, hbound'⟩
          exact hbound'
      | raised x σ'' => exact id
      | undefined => exact id
      | running => exact id
  | undefined => trivial
  | running => trivial

omit hev in
theorem keeps_caught (symbol : Option Symbol) (x : Jump) : Keeps (caught symbol x) := by
  cases x with
  | throw result =>
      cases symbol with
      | none => exact .pure _
      | some s => exact (keeps_assign s _).bind fun _ => .pure _
  | error message =>
      cases message with
      | none => exact .pure _
      | some message =>
          cases symbol with
          | none => exact keeps_jump _
          | some s => exact (keeps_assign s _).bind fun _ => .pure _

omit hev in
theorem keeps_caughtNothing (symbol : Option Symbol) (result : EnvCell) :
    Keeps (caughtNothing symbol result) := by
  cases symbol with
  | none => exact .pure _
  | some s => exact (keeps_assign s _).bind fun _ => .pure _

theorem keeps_catching (cell : EnvCell) (symbol : Option Symbol) :
    Keeps (catching ev cell symbol) := by
  refine (keeps_assign itSymbol .nil).bind fun _ => ?_
  refine keeps_handling ?_ (keeps_caught symbol)
  exact (hev cell).bind (keeps_caughtNothing symbol)

theorem keeps_catch (params : List EnvCell) : Keeps (pCatch S ev params) := by
  refine Keeps.ite (keeps_catching hev _ none) ?_
  refine (keeps_getSymbol hev _).bind fun s => ?_
  refine (keeps_protected s).bind fun locked => ?_
  exact Keeps.ite (keeps_errorProcExt _ _) (keeps_catching hev _ (some s))

theorem keeps_performed : Keeps (perform S ev (evaluateLambda S ev)) :=
  keeps_perform hev (keeps_evaluateLambda hev)

theorem keeps_sysEvalString (proc : List EnvCell) : Keeps (sysEvalString S ev proc) := by
  unfold sysEvalString
  cases proc with
  | nil =>
      have hlambda := keeps_performed (S := S) hev
      refine Keeps.ite ?_ hlambda
      exact (keeps_getInteger64 hev _).bind fun _ => hlambda
  | cons proc rest =>
      have hproc := keeps_handling (keeps_performed (S := S) hev) fun _ => hev proc
      refine Keeps.ite ?_ hproc
      exact (keeps_getInteger64 hev _).bind fun _ => hproc

theorem keeps_evalString (params : List EnvCell) : Keeps (evalString S ev params) := by
  refine (keeps_getString hev params).bind fun ⟨str, params⟩ => ?_
  refine Keeps.ite (keeps_sysEvalString hev []) ?_
  refine (keeps_performed hev).bind fun context => ?_
  exact Keeps.ite (keeps_errorProcExt _ _) (keeps_sysEvalString hev _)

end Handlers

theorem keeps_callPrimitive (fuel : Nat) (params : List EnvCell) (form : Form) :
    Keeps (callPrimitive S ev fuel params form) := by
  cases form with
  | let_ type => exact keeps_let hev params type
  | loop forFlag => exact keeps_loop hev fuel params forFlag
  | dolist type => exact keeps_dolist hev params type
  | repeat_ type => exact keeps_repeat hev fuel params type
  | map => exact keeps_map hev params
  | series => exact keeps_series hev params
  | expand => exact keeps_expand hev params
  | catch_ => exact keeps_catch hev params
  | evalString => exact keeps_evalString hev params
  | readExpr => exact keeps_evalString hev params
  | other number => exact keeps_performed hev

theorem keeps_evaluateHead (args : List EnvCell) : Keeps (evaluateHead S ev args) := by
  unfold evaluateHead
  split
  · exact keeps_contents _
  · exact (keeps_getDynamicSymbol _ _).bind fun s => keeps_contents s
  · exact keeps_evaluateParam hev _

theorem keeps_callFunction (fuel : Nat) (cell : EnvCell) (params : List EnvCell)
    (function : EnvCell) : Keeps (callFunction S ev fuel cell params function) := by
  have hindexed : Keeps (if params.isEmpty then errorProcExt S .invalidFunction cell
      else perform S ev (evaluateLambda S ev)) :=
    Keeps.ite (keeps_errorProcExt _ _) (keeps_performed hev)
  cases function
  case primitive form => exact keeps_callPrimitive hev fuel params form
  case lambda contents =>
    exact Keeps.ite (keeps_performed hev) (keeps_evaluateLambda hev contents params)
  case fexpr contents => exact keeps_evaluateLambdaMacro hev contents params
  case imported => exact keeps_performed hev
  case expression | array | string | long | bigint | float => exact hindexed
  all_goals exact keeps_errorProcExt _ _

theorem keeps_callContext (fuel : Nat) (cell : EnvCell) (params : List EnvCell)
    (function : EnvCell) : Keeps (callContext S ev fuel cell params function) := by
  unfold callContext
  split
  · refine (keeps_contents _).bind fun function => ?_
    exact Keeps.ite (keeps_performed hev) (keeps_callFunction hev fuel cell params function)
  · exact keeps_callFunction hev fuel cell params _

theorem keeps_trace : Keeps (trace S ev) := by
  refine keeps_tracing.bind fun traced => Keeps.ite ?_ (.pure _)
  exact (keeps_performed hev).bind fun _ => .pure _

theorem keeps_evaluateList (fuel : Nat) (args : List EnvCell) :
    Keeps (evaluateList S ev fuel args) := by
  refine Keeps.bind (keeps_modify (fun _ => rfl) fun _ => rfl) fun _ => ?_
  refine keeps_get.bind fun σ => Keeps.ite (keeps_fatalError _ _) ?_
  refine (keeps_evaluateHead hev args).bind fun function => ?_
  refine (keeps_trace hev).bind fun _ => ?_
  refine (keeps_callContext hev fuel _ _ function).bind fun result => ?_
  refine (keeps_trace hev).bind fun _ => ?_
  exact Keeps.bind (keeps_modify (fun _ => rfl) fun _ => rfl) fun _ => .pure result

end Forms

/-- One case for each type of cell, by induction on the depth of the calls. -/
theorem keeps_evaluateExpression (S : Settings) (fuel : Nat) (cell : EnvCell) :
    Keeps (evaluateExpression S fuel cell) := by
  induction fuel generalizing cell with
  | zero => exact keeps_running
  | succ fuel ih =>
      cases cell
      case symbol s => exact keeps_contents s
      case context s => exact keeps_contents s
      case expression args => exact keeps_evaluateList ih fuel args
      case dynSymbol context name =>
        exact (keeps_getDynamicSymbol context name).bind fun s => keeps_contents s
      all_goals exact .pure _

section Claim

/-- The state after a computation; a jump has been caught by a handler that was entered
with this height of the stack. -/
def Completion.after (height : Nat) : Completion α → Option EnvState
  | .value _ σ => some σ
  | .raised _ σ => some { σ with env := σ.env.recover height }
  | _ => none

/-- Between two states a symbol has been assigned where no form entered since had bound
it. -/
def AssignedOutside (σ σ' : EnvState) (s : Symbol) : Prop :=
  ∃ height ≤ σ.height, (s, height) ∈
    σ'.env.assigned.take (σ'.env.assigned.length - σ.env.assigned.length)

/-- The environment stack is the same, and every symbol has its contents again unless it
has been assigned outside the forms that bind it. -/
structure Restored (σ σ' : EnvState) : Prop where
  height : σ'.height = σ.height
  stack : σ'.env.stack = σ.env.stack
  contents : ∀ s, ¬ AssignedOutside σ σ' s → σ'.env.contents s = σ.env.contents s

theorem Restored.of_preserves {more : List (Symbol × Nat)}
    (h : Preserves σ.env σ'.env [] more) : Restored σ σ' where
  height := congrArg List.length h.stack
  stack := h.stack
  contents := by
    intro s hs
    refine h.behind s fun p hp hps => ?_
    subst hps
    by_contra hlow
    refine hs ⟨p.2, Nat.not_lt.1 hlow, ?_⟩
    rw [h.assigned, List.length_append, Nat.add_sub_cancel, List.take_left]
    exact hp

/-- In a run in which no form is left in the middle of its bindings, every evaluation
restores the environment, whether it completes or is left by a jump. -/
theorem environment_restored (S : Settings) (fuel : Nat) (cell : EnvCell) (σ σ' : EnvState)
    (hafter : (evaluateExpression S fuel cell σ).after σ.height = some σ')
    (hkept : σ'.abandoned = false) : Restored σ σ' := by
  have hends := (keeps_evaluateExpression S fuel cell).ends σ
  have hbound : Bound σ [] σ' := by
    cases hcell : evaluateExpression S fuel cell σ with
    | value a σ₁ =>
        rw [hcell] at hends hafter
        obtain rfl := Option.some.inj hafter
        exact hends
    | raised x σ₁ =>
        rw [hcell] at hends hafter
        obtain rfl := Option.some.inj hafter
        obtain ⟨ss, hraised⟩ := hends
        exact hraised.recover
    | undefined =>
        rw [hcell] at hafter
        contradiction
    | running =>
        rw [hcell] at hafter
        contradiction
  rcases hbound with habandoned | ⟨hσ, bindings, more, hnames, hpres⟩
  · rw [hkept] at habandoned
    contradiction
  · obtain rfl : bindings = [] := List.map_eq_nil_iff.1 hnames
    exact .of_preserves hpres

/-- `MAIN`: a symbol of the program. -/
def mainSymbol (name : String) : Symbol := ⟨"MAIN", name⟩

/-- `let` and `println`, which is protected, and no other contents. -/
def startState (traceFlag : Nat) : EnvState where
  env := ⟨fun s => if s = mainSymbol "let" then .primitive (.let_ .std) else .nil, [], []⟩
  flags s := if s = mainSymbol "println" then symbolProtected else 0
  symbols _ := []
  traceFlag := traceFlag
  recursionCount := 0
  signals := []
  works := []
  abandoned := false

def startSettings : Settings := ⟨2048, 32768, fun _ _ => [], fun _ => false⟩

/-- `(let (x 1 println 2) x)`. -/
def letProtected : EnvCell :=
  .expression [.symbol (mainSymbol "let"),
    .expression [.symbol (mainSymbol "x"), .long 1, .symbol (mainSymbol "println"), .long 2],
    .symbol (mainSymbol "x")]

/-- `(let (x 1) x)`, without the trace. -/
theorem environment_restored_let : ∃ σ', Restored (startState 0) σ' :=
  ⟨_, environment_restored startSettings 3
    (.expression [.symbol (mainSymbol "let"),
      .expression [.symbol (mainSymbol "x"), .long 1], .symbol (mainSymbol "x")])
    (startState 0) _ rfl rfl⟩

/-- While tracing, `let` returns with `x` bound when it comes to `println`. -/
theorem environment_not_restored : ¬ ∀ (S : Settings) (fuel : Nat) (cell : EnvCell)
    (σ σ' : EnvState), (evaluateExpression S fuel cell σ).after σ.height = some σ' →
      Restored σ σ' := by
  intro h
  have hrestored := h startSettings 3 letProtected (startState 1) _ rfl
  have hheight : (1 : Nat) = 0 := hrestored.height
  contradiction

end Claim

end NewLispNeo.EnvStack
