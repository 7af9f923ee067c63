/-
What a computation of the evaluator does to the bindings it finds: triples of the
symbols bound before and after, for the operations and the functions not modelled.
-/
import NewLispNeo.BindingForms

namespace NewLispNeo.EnvStack

open Bindings EnvM

variable {α β : Type} {S : Settings} {ev : EnvCell → EnvM EnvCell} {σ₀ σ σ' : EnvState}
  {pre ss ts : List Symbol} {s : Symbol} {m : EnvM α} {f : α → EnvM β}

section Bound

/-- Since `σ₀` these symbols have been bound, innermost first, and behind them
everything is as it was, unless a form has been left. -/
def Bound (σ₀ : EnvState) (ss : List Symbol) (σ : EnvState) : Prop :=
  σ.abandoned = true ∨ σ₀.abandoned = false ∧ ∃ bindings more,
    names bindings = ss ∧ Preserves σ₀.env σ.env bindings more

theorem Bound.refl (σ : EnvState) : Bound σ [] σ := by
  cases h : σ.abandoned with
  | true => exact .inl h
  | false => exact .inr ⟨h, [], [], rfl, Preserves.refl _⟩

theorem Bound.trans (h : Bound σ₀ ss σ) (h' : Bound σ ts σ') : Bound σ₀ (ts ++ ss) σ' := by
  rcases h' with h' | ⟨hσ, bindings', more', rfl, hpres'⟩
  · exact .inl h'
  · rcases h with h | ⟨hσ₀, bindings, more, rfl, hpres⟩
    · rw [h] at hσ
      contradiction
    · refine .inr ⟨hσ₀, bindings' ++ bindings, more' ++ more, ?_, hpres.trans hpres'⟩
      exact List.map_append

/-- A step that leaves the environment alone. -/
theorem Bound.same (h : Bound σ₀ ss σ) (henv : σ'.env = σ.env)
    (habandoned : σ'.abandoned = σ.abandoned) : Bound σ₀ ss σ' := by
  unfold Bound at h ⊢
  rwa [henv, habandoned]

theorem Bound.push (h : Bound σ₀ ss σ) (s : Symbol) :
    Bound σ₀ (s :: ss) { σ with env := σ.env.push s } := by
  rcases h with h | ⟨hσ₀, bindings, more, rfl, hpres⟩
  · exact .inl h
  · exact .inr ⟨hσ₀, _, more, rfl, hpres.push s⟩

theorem Bound.set (h : Bound σ₀ ss σ) (hs : s ∈ ss) (value : EnvCell) :
    Bound σ₀ ss { σ with env := σ.env.set s value } := by
  rcases h with h | ⟨hσ₀, bindings, more, rfl, hpres⟩
  · exact .inl h
  · exact .inr ⟨hσ₀, bindings, more, rfl, hpres.set hs value⟩

theorem Bound.assign (h : Bound σ₀ ss σ) (s : Symbol) (value : EnvCell) :
    Bound σ₀ ss { σ with env := σ.env.assign s value } := by
  rcases h with h | ⟨hσ₀, bindings, more, hnames, hpres⟩
  · exact .inl h
  · exact .inr ⟨hσ₀, bindings, _, hnames, hpres.trans (Preserves.assign _ s value)⟩

theorem Bound.recover (h : Bound σ ss σ') :
    Bound σ [] { σ' with env := σ'.env.recover σ.height } := by
  rcases h with h | ⟨hσ, bindings, more, rfl, hpres⟩
  · exact .inl h
  · exact .inr ⟨hσ, [], more, rfl, hpres.recover⟩

theorem Bound.nil_of_height (h : Bound σ ss σ') (hheight : σ'.height = σ.height) :
    Bound σ [] σ' := by
  rcases h with h | ⟨hσ, bindings, more, rfl, hpres⟩
  · exact .inl h
  · have hlength := congrArg List.length hpres.stack
    rw [List.length_append] at hlength
    unfold EnvState.height at hheight
    obtain rfl : bindings = [] := List.eq_nil_of_length_eq_zero (by omega)
    exact .inr ⟨hσ, [], more, rfl, hpres⟩

end Bound

section Triples

/-- How a computation that began in `σ₀` may end: with a value, or with a jump from
under some bindings. -/
def Ends (σ₀ : EnvState) (post : α → EnvState → Prop) : Completion α → Prop
  | .value a σ => post a σ
  | .raised _ σ => ∃ ss, Bound σ₀ ss σ
  | _ => True

/-- From under the bindings `pre` a computation comes to those of `post`. -/
def Binds (pre : List Symbol) (m : EnvM α) (post : α → List Symbol → Prop) : Prop :=
  ∀ σ₀ σ, Bound σ₀ pre σ → Ends σ₀ (fun a σ' => ∃ ss, post a ss ∧ Bound σ₀ ss σ') (m σ)

/-- The computation takes back all its bindings. -/
def Keeps (m : EnvM α) : Prop := ∀ ss, Binds ss m fun _ ts => ts = ss

theorem Binds.pure {post : α → List Symbol → Prop} {a : α} (h : post a pre) :
    Binds pre (Pure.pure a) post := fun _ _ hbound => ⟨pre, h, hbound⟩

theorem Binds.bind {mid : α → List Symbol → Prop} {post : β → List Symbol → Prop}
    (hm : Binds pre m mid) (hf : ∀ a ss, mid a ss → Binds ss (f a) post) :
    Binds pre (m >>= f) post := by
  intro σ₀ σ hbound
  have hends := hm σ₀ σ hbound
  change Ends σ₀ _ (EnvM.bind m f σ)
  rw [EnvM.bind]
  cases hmσ : m σ with
  | value a σ' =>
      rw [hmσ] at hends
      obtain ⟨ss, hmid, hbound'⟩ := hends
      exact hf a ss hmid σ₀ σ' hbound'
  | raised x σ' =>
      rw [hmσ] at hends
      exact hends
  | undefined => trivial
  | running => trivial

theorem Keeps.pure (a : α) : Keeps (Pure.pure a : EnvM α) := fun _ => .pure rfl

theorem Keeps.bind (hm : Keeps m) (hf : ∀ a, Keeps (f a)) : Keeps (m >>= f) := by
  intro ss
  refine (hm ss).bind fun a ts hts => ?_
  subst hts
  exact hf a ts

/-- After a computation that keeps the bindings. -/
theorem Binds.after {post : β → List Symbol → Prop} (hm : Keeps m)
    (hf : ∀ a, Binds pre (f a) post) : Binds pre (m >>= f) post := by
  refine (hm pre).bind fun a ss hss => ?_
  subst hss
  exact hf a

theorem Keeps.ite {c : Prop} [Decidable c] {m m' : EnvM α} (hm : Keeps m)
    (hm' : Keeps m') : Keeps (if c then m else m') := by
  split
  · exact hm
  · exact hm'

/-- It is enough to look at the bindings made since the computation began. -/
theorem Keeps.of_self (h : ∀ σ, Ends σ (fun _ => Bound σ []) (m σ)) : Keeps m := by
  intro ss σ₀ σ hbound
  have hends := h σ
  cases hmσ : m σ with
  | value a σ' =>
      rw [hmσ] at hends
      exact ⟨ss, rfl, hbound.trans hends⟩
  | raised x σ' =>
      rw [hmσ] at hends
      obtain ⟨ts, hraised⟩ := hends
      exact ⟨ts ++ ss, hbound.trans hraised⟩
  | undefined => trivial
  | running => trivial

theorem Keeps.ends (hm : Keeps m) (σ : EnvState) : Ends σ (fun _ => Bound σ []) (m σ) := by
  have hends := hm [] σ σ (.refl σ)
  cases hmσ : m σ with
  | value a σ' =>
      rw [hmσ] at hends
      obtain ⟨ss, rfl, hbound⟩ := hends
      exact hbound
  | raised x σ' =>
      rw [hmσ] at hends
      exact hends
  | undefined => trivial
  | running => trivial

theorem keeps_jump (x : Jump) : Keeps (jump x : EnvM α) := fun ss _ _ hbound => ⟨ss, hbound⟩

theorem binds_undefined {post : α → List Symbol → Prop} : Binds pre undefined post :=
  fun _ _ _ => trivial

theorem keeps_undefined : Keeps (undefined : EnvM α) := fun _ => binds_undefined

theorem keeps_running : Keeps (running : EnvM α) := fun _ _ _ _ => trivial

theorem keeps_get : Keeps get := fun ss _ _ hbound => ⟨ss, rfl, hbound⟩

/-- A change of the state that leaves the environment alone. -/
theorem keeps_modify {g : EnvState → EnvState} (henv : ∀ σ, (g σ).env = σ.env)
    (habandoned : ∀ σ, (g σ).abandoned = σ.abandoned) : Keeps (modify g) :=
  fun ss _ σ hbound => ⟨ss, rfl, hbound.same (henv σ) (habandoned σ)⟩

end Triples

section Operations

theorem keeps_contents (s : Symbol) : Keeps (contents s) :=
  fun ss _ _ hbound => ⟨ss, rfl, hbound⟩

theorem keeps_protected (s : Symbol) : Keeps (protected_ s) :=
  fun ss _ _ hbound => ⟨ss, rfl, hbound⟩

theorem keeps_assign (s : Symbol) (value : EnvCell) : Keeps (assign s value) :=
  fun ss _ _ hbound => ⟨ss, rfl, hbound.assign s value⟩

theorem binds_abandon (ss : List Symbol) : Binds pre abandon fun _ ts => ts = ss :=
  fun _ _ _ => ⟨ss, rfl, .inl rfl⟩

theorem binds_pushEnvironment (s : Symbol) :
    Binds pre (pushEnvironment S s) fun _ ss => ss = s :: pre := by
  intro σ₀ σ hbound
  unfold pushEnvironment
  split
  · exact ⟨s :: pre, rfl, hbound.push s⟩
  · trivial

theorem binds_setContents (hs : s ∈ pre) (value : EnvCell) :
    Binds pre (setContents s value) fun _ ss => ss = pre :=
  fun _ _ hbound => ⟨pre, rfl, hbound.set hs value⟩

/-- A symbol is pushed and gets its new contents. -/
theorem binds_push_set (s : Symbol) (value : EnvCell) {m : EnvM β}
    {post : β → List Symbol → Prop} (hm : Binds (s :: pre) m post) :
    Binds pre (do pushEnvironment S s; setContents s value; m) post := by
  refine (binds_pushEnvironment s).bind fun _ ss hss => ?_
  subst hss
  refine (binds_setContents List.mem_cons_self value).bind fun _ ss hss => ?_
  subst hss
  exact hm

theorem binds_popEnvironment (s : Symbol) :
    Binds (s :: ss) popEnvironment fun _ ts => ts = ss := by
  intro σ₀ σ hbound
  unfold popEnvironment
  rcases hbound with habandoned | ⟨hσ₀, bindings, more, hnames, hpres⟩
  · cases σ.env.pop with
    | none => trivial
    | some popped => exact ⟨ss, rfl, .inl habandoned⟩
  · cases bindings with
    | nil => simp [names] at hnames
    | cons binding bindings =>
        obtain ⟨value, t⟩ := binding
        obtain ⟨env, hpop, hpres'⟩ := hpres.pop
        rw [hpop]
        simp only [names, List.map_cons, List.cons.injEq] at hnames
        exact ⟨ss, rfl, .inr ⟨hσ₀, bindings, more, hnames.2, hpres'⟩⟩

theorem binds_restoreEnvironment :
    Binds (ts ++ ss) (restoreEnvironment ts.length) fun _ us => us = ss := by
  induction ts with
  | nil => exact .pure rfl
  | cons t ts ih =>
      refine (binds_popEnvironment t).bind fun _ us hus => ?_
      subst hus
      exact ih

end Operations

section Errors

theorem keeps_tracing : Keeps tracing := fun ss _ _ hbound => ⟨ss, rfl, hbound.same rfl rfl⟩

theorem keeps_fatalError (error : EnvError) (cell : EnvCell) :
    Keeps (fatalError S error cell : EnvM α) := fun ss _ _ hbound => ⟨ss, hbound.same rfl rfl⟩

theorem keeps_errorProcExt (error : EnvError) (cell : EnvCell) :
    Keeps (errorProcExt S error cell) := by
  refine keeps_tracing.bind fun traced => ?_
  exact (Keeps.pure _).ite (keeps_fatalError error cell)

theorem keeps_errorProcArgs (error : EnvError) (params : List EnvCell) :
    Keeps (errorProcArgs S error params) := by
  cases params with
  | nil => exact keeps_errorProcExt _ _
  | cons cell params => exact keeps_errorProcExt _ _

/-- A form that is left with symbols bound: this is the defect. -/
theorem binds_leave_bound {post : Option α → List Symbol → Prop} {bound : Nat}
    (hbound : bound ≠ 0) (error : EnvError) (cell : EnvCell) (hpost : post none ss) :
    Binds pre (leave S bound error cell) post := by
  refine Binds.after (keeps_errorProcExt error cell) fun _ => ?_
  rw [if_pos hbound]
  refine (binds_abandon ss).bind fun _ us hus => ?_
  subst hus
  exact .pure hpost

theorem binds_leave {post : Option α → List Symbol → Prop} (ts : List Symbol)
    (error : EnvError) (cell : EnvCell) (hpost : post none ss) :
    Binds (ts ++ ss) (leave S ts.length error cell) post := by
  cases ts with
  | nil => exact Binds.after (keeps_errorProcExt error cell) fun _ => .pure hpost
  | cons t ts => exact binds_leave_bound (Nat.succ_ne_zero _) error cell hpost

end Errors

section Work

variable {call : List EnvCell → List EnvCell → EnvM EnvCell}

theorem keeps_evaluatePrompt (hev : ∀ cell, Keeps (ev cell)) (command : EnvCell) :
    Keeps (evaluatePrompt ev command) := by
  refine Keeps.of_self fun σ => ?_
  have hends := (hev command).ends σ
  unfold evaluatePrompt
  cases hcommand : ev command σ with
  | value a σ' =>
      rw [hcommand] at hends
      exact hends
  | raised x σ' =>
      rw [hcommand] at hends
      obtain ⟨ss, hbound⟩ := hends
      dsimp only
      split
      · rename_i hheight
        exact hbound.nil_of_height hheight
      · exact .inl rfl
  | undefined => trivial
  | running => trivial

theorem keeps_evaluateCallback (hev : ∀ cell, Keeps (ev cell)) (cell : EnvCell) :
    Keeps (evaluateCallback ev cell) := by
  refine Keeps.of_self fun σ => ?_
  have hends := (hev cell).ends σ
  unfold evaluateCallback
  cases hcell : ev cell σ with
  | value a σ' =>
      rw [hcell] at hends
      exact hends
  | raised x σ' =>
      rw [hcell] at hends
      obtain ⟨ss, hbound⟩ := hends
      by_cases hheight : σ.height = 0
      · have hrecovered := hbound.recover
        rw [hheight] at hrecovered
        exact hrecovered.same rfl (by simp [hheight])
      · exact .inl (by simp [hheight])
  | undefined => trivial
  | running => trivial

theorem keeps_deleteSymbol (s : Symbol) : Keeps (deleteSymbol s) := by
  refine Keeps.of_self fun σ => ?_
  unfold deleteSymbol
  split
  · trivial
  · exact (keeps_assign s .nil).ends σ

theorem keeps_run (hev : ∀ cell, Keeps (ev cell)) (hcall : ∀ lambda args, Keeps (call lambda args))
    (work : Work) : Keeps (work.run S ev call) := by
  induction work with
  | answer cell => exact .pure cell
  | jump x => exact keeps_jump x
  | report error cell next ih => exact (keeps_errorProcExt error cell).bind fun _ => ih
  | evaluate cell next ih => exact (hev cell).bind ih
  | call lambda args next ih => exact (hcall lambda args).bind ih
  | inspect next ih => exact keeps_get.bind fun σ => ih _
  | assign s value next ih => exact (keeps_assign s value).bind fun _ => ih
  | delete s next ih => exact (keeps_deleteSymbol s).bind fun _ => ih
  | setFlags s flags next ih =>
      refine Keeps.bind ?_ fun _ => ih
      exact keeps_modify (fun _ => rfl) fun _ => rfl
  | setTrace flag next ih =>
      refine Keeps.bind ?_ fun _ => ih
      exact keeps_modify (fun _ => rfl) fun _ => rfl
  | setSymbols context symbols next ih =>
      refine Keeps.bind ?_ fun _ => ih
      exact keeps_modify (fun _ => rfl) fun _ => rfl
  | prompt command next ih => exact (keeps_evaluatePrompt hev command).bind fun _ => ih
  | callback cell next ih => exact (keeps_evaluateCallback hev cell).bind ih

theorem keeps_perform (hev : ∀ cell, Keeps (ev cell))
    (hcall : ∀ lambda args, Keeps (call lambda args)) : Keeps (perform S ev call) := by
  refine Keeps.of_self fun σ => ?_
  unfold perform
  cases σ.works with
  | nil => exact .refl σ
  | cons work works =>
      dsimp only
      have hrun : Ends _ _ (work.run S ev call { σ with works := works }) :=
        (keeps_run hev hcall work).ends _
      cases hwork : work.run S ev call { σ with works := works } with
      | value a σ' =>
          rw [hwork] at hrun
          exact hrun
      | raised x σ' =>
          rw [hwork] at hrun
          exact hrun
      | undefined => trivial
      | running => trivial

end Work

end NewLispNeo.EnvStack
