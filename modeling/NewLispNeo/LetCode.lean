/-
The code of `let` and `local` against the tree-walker.
-/
import NewLispNeo.Scopes

namespace NewLispNeo

open StepRun Compiler
open Machine (operand jumpBytes loadLocalBytes storeLocalBytes)

namespace Run

variable {R : Run} {sc : Scope} {F F' : List Val} {σ σ' σ₂ σ₃ τ : Interp} {s : Symbol}
  {k p q : Nat} {v w : Val} {T : List Val} {symbols : List Symbol}

section Pending

theorem Rel.pend (h : R.Rel sc F σ) (hs : isAnaphoric s = false)
    (hfew : sc.locals.length < NewLispNeo.maxLocals) : R.Rel (sc.pend s) F σ := by
  refine ⟨h.size, ?_, fun t ht => ?_, fun t k hhid hslot => ?_, fun t hhid hslot hspec => ?_⟩
  · simpa [Scope.pend, Nat.succ_le_iff] using hfew
  · by_cases hts : t = s
    · rwa [hts]
    · rw [Scope.slot_pend_ne hts] at ht
      exact h.plain t ht
  · simp only [Scope.pend, List.mem_cons, not_or] at hhid
    rw [Scope.slot_pend_ne hhid.1] at hslot
    exact h.slot t k hhid.2 hslot
  · simp only [Scope.pend, List.mem_cons, not_or] at hhid
    rw [Scope.slot_pend_ne hhid.1] at hslot
    exact h.global t hhid.2 hslot hspec

theorem unseen_pend (h : Unseen sc k) : Unseen (sc.pend s) k := by
  refine ⟨?_, fun t ht => ?_⟩
  · have hlt := h.1
    simp only [Scope.pend, List.length_append, List.length_singleton]
    omega
  · simp only [Scope.pend, List.mem_cons, not_or] at ht
    rw [Scope.slot_pend_ne ht.1]
    exact h.2 t ht.2

theorem unseen_pend_self : Unseen (sc.pend s) sc.locals.length := by
  refine ⟨by simp [Scope.pend], fun t ht hslot => ?_⟩
  simp only [Scope.pend, List.mem_cons, not_or] at ht
  exact ht.1 (Scope.slot_injective hslot Scope.slot_pend_self)

theorem Kept.unpend (h : Kept (sc.pend s) F σ F' σ') : Kept sc F σ F' σ' :=
  ⟨h.length_eq, fun k hk => h.unseen k (unseen_pend hk),
    fun t ht => h.hidden t (List.mem_cons_of_mem s ht)⟩

/-- A variable that waits for its initialiser is what it was outside. -/
theorem Rel.unpend (h : R.Rel sc F σ) (h' : R.Rel (sc.pend s) F' σ')
    (hk : Kept (sc.pend s) F σ F' σ') (hs : isAnaphoric s = false) : R.Rel sc F' σ' := by
  have hself : σ'.contents s = σ.contents s := hk.hidden s List.mem_cons_self hs
  refine ⟨h'.size, h.few, h.plain, fun t k hhid hslot => ?_, fun t hhid hslot hspec => ?_⟩
  · by_cases hts : t = s
    · subst hts
      have hunseen : Unseen (sc.pend t) k := by
        refine ⟨?_, fun u hu hslot' => ?_⟩
        · have hlt := Scope.slot_lt hslot
          simp only [Scope.pend, List.length_append, List.length_singleton]
          omega
        · simp only [Scope.pend, List.mem_cons, not_or] at hu
          rw [Scope.slot_pend_ne hu.1] at hslot'
          exact hu.1 (Scope.slot_injective hslot' hslot)
      rw [hk.unseen k hunseen, hself]
      exact h.slot t k hhid hslot
    · refine h'.slot t k ?_ ?_
      · simp only [Scope.pend, List.mem_cons, not_or]
        exact ⟨hts, hhid⟩
      · rwa [Scope.slot_pend_ne hts]
  · by_cases hts : t = s
    · subst hts
      rw [hself]
      exact h.global t hhid hslot hspec
    · refine h'.global t ?_ ?_ hspec
      · simp only [Scope.pend, List.mem_cons, not_or]
        exact ⟨hts, hhid⟩
      · rwa [Scope.slot_pend_ne hts]

/-- A slot that no visible variable has can be written. -/
theorem Rel.set (h : R.Rel sc F σ) (hk : ∀ t, t ∉ sc.hidden → sc.slot t ≠ some k) :
    R.Rel sc (F.set k w) σ := by
  refine ⟨by simpa using h.size, h.few, h.plain, fun t j hhid hslot => ?_, h.global⟩
  have hne : k ≠ j := fun heq => hk t hhid (heq ▸ hslot)
  rw [List.getElem?_set_ne hne]
  exact h.slot t j hhid hslot

theorem Kept.set_new (h : Kept sc F σ F' σ') (hk : sc.locals.length ≤ k) :
    Kept sc F σ (F'.set k w) σ' := by
  refine ⟨by simpa using h.length_eq, fun j hj => ?_, h.hidden⟩
  have hne : k ≠ j := by
    have hlt := hj.1
    omega
  rw [List.getElem?_set_ne hne]
  exact h.unseen j hj

/-- The initialiser of a variable, and the store to its slot. -/
theorem initialiser_arrives {leaves : Demand → Prop} (hr : R.Rel sc F σ)
    (hs : isAnaphoric s = false)
    (h : R.Arrives (sc.pend s) p q F T σ v σ' leaves) (hall : leaves .all)
    (hstore : R.Code q (storeLocalBytes sc.locals.length))
    (hlt : sc.locals.length < F.length) :
    ∃ F', R.Goes p F T (q + (storeLocalBytes sc.locals.length).length) F' T ∧
      R.Rel sc F' σ' ∧ Kept sc F σ F' σ' ∧
      ∃ w, F'[sc.locals.length]? = some w ∧ w.deref R.globals = .value v.cell := by
  obtain ⟨F₁, w, cell, hg, hw, hl, hr₁, hk₁⟩ := h
  obtain rfl : cell = v.cell := (hl .all).mp hall
  have hlt₁ : sc.locals.length < F₁.length := by
    rw [hk₁.length_eq]
    exact hlt
  have hbig : sc.locals.length < 65536 := by
    have hfew := hr.few
    simp only [NewLispNeo.maxLocals] at hfew
    omega
  refine ⟨F₁.set sc.locals.length w, hg.trans (goes_storeLocal hstore hbig hlt₁),
    (hr.unpend hr₁ hk₁ hs).set fun t _ hslot => ?_, hk₁.unpend.set_new le_rfl, w, ?_, hw⟩
  · exact absurd (Scope.slot_lt hslot) (Nat.lt_irrefl _)
  · simp [hlt₁]

end Pending

section Entering

variable {flags : SymbolFlags} {list : List (Symbol × Cell)} {saved : Environment}

/-- The slots from the first free one on hold these values. -/
def Slots (R : Run) (sc : Scope) (F : List Val) (values : List Cell) : Prop :=
  ∀ i c, values[i]? = some c →
    ∃ w, F[sc.locals.length + i]? = some w ∧ w.deref R.globals = .value c

/-- The machine and the tree-walker where the variables of a block are bound. -/
theorem Rel.enter (h : R.Rel sc F σ) (hbind : letBind flags σ [] list = .value (σ₂, saved))
    (hplain : ∀ s ∈ list.map Prod.fst, isAnaphoric s = false)
    (hfew : sc.locals.length + list.length ≤ NewLispNeo.maxLocals)
    (hslots : R.Slots sc F (list.map Prod.snd)) :
    R.Rel (sc.enter (list.map Prod.fst)) F σ₂ := by
  obtain ⟨-, hother, hvals, -⟩ := letBind_spec hbind
  refine ⟨h.size, ?_, fun t ht => ?_, fun t k hhid hslot => ?_, fun t hhid hslot hspec => ?_⟩
  · simpa [Scope.enter, Scope.bound] using hfew
  · by_cases hmem : t ∈ list.map Prod.fst
    · exact hplain t hmem
    · rw [Scope.slot_enter_of_not_mem hmem] at ht
      exact h.plain t ht
  · by_cases hmem : t ∈ list.map Prod.fst
    · obtain ⟨j, hj, hfind, hle⟩ := sc.exists_slot_enter hmem
      obtain rfl : j = k := Option.some.inj (hj.symm.trans hslot)
      obtain ⟨w, hw, hderef⟩ := hslots _ _ (hvals t _ j hfind)
      rw [show sc.locals.length + (j - sc.locals.length) = j by omega] at hw
      exact ⟨w, hw, hderef⟩
    · rw [Scope.slot_enter_of_not_mem hmem] at hslot
      rw [hother t hmem]
      exact h.slot t k (fun hin => hhid (Scope.mem_hidden_enter.mpr ⟨hin, hmem⟩)) hslot
  · have hmem : t ∉ list.map Prod.fst := fun hmem => by
      obtain ⟨j, hj, -⟩ := sc.exists_slot_enter hmem
      rw [hj] at hslot
      cases hslot
    rw [Scope.slot_enter_of_not_mem hmem] at hslot
    rw [hother t hmem]
    exact h.global t (fun hin => hhid (Scope.mem_hidden_enter.mpr ⟨hin, hmem⟩)) hslot hspec

theorem unseen_enter (h : Unseen sc k) : Unseen (sc.enter symbols) k := by
  refine ⟨?_, fun t ht => ?_⟩
  · have hlt := h.1
    simp only [Scope.enter, Scope.bound, List.length_append]
    omega
  · by_cases hmem : t ∈ symbols
    · obtain ⟨j, hj, -, hle⟩ := sc.exists_slot_enter hmem
      rw [hj]
      have hlt := h.1
      intro heq
      have := Option.some.inj heq
      omega
    · rw [Scope.slot_enter_of_not_mem hmem]
      exact h.2 t fun hin => ht (Scope.mem_hidden_enter.mpr ⟨hin, hmem⟩)

/-- They are the same outside of the block when its variables are restored. -/
theorem Rel.leave (h : R.Rel sc F σ) (h' : R.Rel (sc.enter symbols) F' σ₃)
    (hk : Kept (sc.enter symbols) F σ₂ F' σ₃)
    (hσ₂ : ∀ t, t ∉ symbols → σ₂.contents t = σ.contents t)
    (hτ : ∀ t, τ.contents t = if t ∈ symbols then σ.contents t else σ₃.contents t) :
    R.Rel sc F' τ ∧ Kept sc F σ F' τ := by
  refine ⟨⟨h'.size, h.few, h.plain, fun t k hhid hslot => ?_, fun t hhid hslot hspec => ?_⟩,
    ⟨hk.length_eq, fun k hk' => hk.unseen k (unseen_enter hk'), fun t ht hplain => ?_⟩⟩
  · by_cases hmem : t ∈ symbols
    · rw [hτ t, if_pos hmem]
      have hunseen : Unseen (sc.enter symbols) k := by
        have hlt := Scope.slot_lt hslot
        refine ⟨?_, fun u hu hslot' => ?_⟩
        · simp only [Scope.enter, Scope.bound, List.length_append]
          omega
        · by_cases hmem' : u ∈ symbols
          · obtain ⟨j, hj, -, hle⟩ := sc.exists_slot_enter hmem'
            have := Option.some.inj (hj.symm.trans hslot')
            omega
          · rw [Scope.slot_enter_of_not_mem hmem'] at hslot'
            exact hmem' (Scope.slot_injective hslot' hslot ▸ hmem)
      rw [hk.unseen k hunseen]
      exact h.slot t k hhid hslot
    · rw [hτ t, if_neg hmem]
      refine h'.slot t k (fun hin => hhid (Scope.mem_hidden_enter.mp hin).1) ?_
      rwa [Scope.slot_enter_of_not_mem hmem]
  · rw [hτ t]
    by_cases hmem : t ∈ symbols
    · rw [if_pos hmem]
      exact h.global t hhid hslot hspec
    · rw [if_neg hmem]
      refine h'.global t (fun hin => hhid (Scope.mem_hidden_enter.mp hin).1) ?_ hspec
      rwa [Scope.slot_enter_of_not_mem hmem]
  · rw [hτ t]
    by_cases hmem : t ∈ symbols
    · rw [if_pos hmem]
    · rw [if_neg hmem, hk.hidden t (Scope.mem_hidden_enter.mpr ⟨ht, hmem⟩) hplain, hσ₂ t hmem]

end Entering

section Forms

variable {c c' : Compiler} {ev : Evaluator} {follows : Scope → Interp → Cell → Prop}
  {leavesOf : Demand → Interp → Cell → Prop} {isTail : Bool} {args inits : List Cell}
  {list : List (Symbol × Cell)}

/-- A slot the compiler has given out is in the frame. -/
theorem slot_in_frame (hr : R.Rel sc F σ) (hlinks : R.Links c) (hk : k < c.maxLocals) :
    k < F.length :=
  hk.trans_le (hlinks.maxLocals.trans hr.size)

theorem locals_pend {slot : Nat} {c₁ c₂ : Compiler}
    (hadd : c.addLocal (some s) = .value (slot, c₁)) (hext : Extends c₁ c₂)
    (hlocals : sc.locals = c.locals) : (sc.pend s).locals = (c₂.emitStoreLocal slot).locals := by
  obtain ⟨-, -, hc₁⟩ := addLocal_eq hadd
  rw [(hext.emitStoreLocal slot).locals_eq, hc₁, Scope.pend, hlocals]

/-- One binding of a `let`: the slot, the code of the initialiser in its scope, and the
store. -/
theorem binding_arrives {slot : Nat} {c₁ c₂ : Compiler}
    (hadd : c.addLocal (some s) = .value (slot, c₁)) (hext : Extends c₁ c₂)
    (hlocals : sc.locals = c.locals) (hr : R.Rel sc F σ) (hs : isAnaphoric s = false)
    (hcode : R.Code p (emitted c (c₂.emitStoreLocal slot)))
    (hlinks : R.Links (c₂.emitStoreLocal slot))
    (hinit : R.Rel (sc.pend s) F σ → R.Placed (sc.pend s) c₁ c₂ p → ∃ leaves, leaves .all ∧
      R.Arrives (sc.pend s) p (p + (emitted c₁ c₂).length) F T σ v σ' leaves) :
    ∃ F', R.Goes p F T (p + (emitted c (c₂.emitStoreLocal slot)).length) F' T ∧
      R.Rel sc F' σ' ∧ R.Rel (sc.pend s) F' σ' ∧ Kept sc F σ F' σ' ∧
      ∃ w, F'[sc.locals.length]? = some w ∧ w.deref R.globals = .value v.cell := by
  obtain ⟨rfl, hroom, hc₁⟩ := addLocal_eq hadd
  have hcode₁ : c₁.code = c.code := by rw [hc₁]
  have hmax : c.locals.length < c₁.maxLocals := by
    rw [hc₁]
    exact Nat.lt_of_lt_of_le (Nat.lt_succ_self _) (le_max_right _ _)
  have hem : emitted c (c₂.emitStoreLocal c.locals.length) =
      emitted c₁ c₂ ++ storeLocalBytes sc.locals.length := by
    apply emitted_of_code_eq
    rw [emitStoreLocal_code, hext.code_eq, hcode₁, hlocals, List.append_assoc]
  rw [hem, code_append] at hcode
  have hlinks₂ : R.Links c₂ :=
    hlinks.of_pools ((Extends.refl c₂).emitStoreLocal c.locals.length).pools
  have hlinks₁ : R.Links c₁ := hlinks₂.of_pools hext.pools
  have hfew : sc.locals.length < NewLispNeo.maxLocals := by rwa [hlocals]
  have hlt : sc.locals.length < F.length := by
    rw [hlocals]
    exact slot_in_frame hr hlinks₁ hmax
  have hplaced : R.Placed (sc.pend s) c₁ c₂ p := by
    refine ⟨hcode.1, hlinks₂, ?_⟩
    rw [hc₁, Scope.pend, hlocals]
  obtain ⟨leaves, hall, harr⟩ := hinit (hr.pend hs hfew) hplaced
  obtain ⟨F', hg, hr', hk, w, hw, hderef⟩ :=
    initialiser_arrives hr hs harr hall hcode.2 hlt
  refine ⟨F', ?_, hr', hr'.pend hs hfew, hk, w, hw, hderef⟩
  rw [hem, List.length_append, ← Nat.add_assoc]
  exact hg

/-- What is no list of bindings stops the tree-walker. -/
theorem eq_nil_of_letInits
    (h₁ : ∀ s init rest, inits = .expression (.symbol s :: init) :: rest → False)
    (h₂ : ∀ s, inits = [.symbol s] → False)
    (h₃ : ∀ s init rest, inits = .symbol s :: init :: rest → False)
    (hev : letInits ev σ inits = .value (list, σ')) : inits = [] := by
  cases inits with
  | nil => rfl
  | cons x xs =>
      exfalso
      cases x with
      | symbol s =>
          cases xs with
          | nil => exact h₂ s rfl
          | cons y ys => exact h₃ s y ys rfl
      | expression l =>
          cases l with
          | nil => simp [letInits] at hev
          | cons y ys =>
              cases y with
              | symbol s => exact h₁ s ys xs rfl
              | _ => simp [letInits] at hev
      | _ => simp [letInits] at hev

/-- The initialiser of a variable; a missing one is `nil`. -/
theorem first_arrives (hsim : R.Simulates ev follows leavesOf)
    (hc : compileFirst R.ctx.compile args isTail c = .value c')
    (hev : evaluateParam ev σ args = .value (v, σ'))
    (hf : InitFollows follows leavesOf sc σ args) (hp : R.Placed sc c c' p)
    (hr : R.Rel sc F σ) :
    ∃ leaves, leaves .all ∧ R.Arrives sc p (p + (emitted c c').length) F T σ v σ' leaves := by
  cases args with
  | nil =>
      simp only [compileFirst, Outcome.value.injEq] at hc
      simp only [evaluateParam, Outcome.value.injEq, Prod.mk.injEq] at hev
      obtain ⟨rfl, rfl⟩ := hev
      subst hc
      refine ⟨fun _ => True, trivial, ?_⟩
      rw [emitted_emitOp]
      exact .of_goes (goes_nil hp.op) rfl hr (by simp)
  | cons e es =>
      rw [compileFirst] at hc
      rw [evaluateParam] at hev
      exact ⟨_, hf.2, hsim T hc hev hf.1 hp hr⟩

/-- The first slot, and those behind it. -/
theorem Slots.cons {cell : Cell} {values : List Cell} (hk : Kept (sc.pend s) F σ F' σ')
    (hw : F[sc.locals.length]? = some w) (hderef : w.deref R.globals = .value cell)
    (h : R.Slots (sc.pend s) F' values) : R.Slots sc F' (cell :: values) := by
  intro i c hi
  cases i with
  | zero =>
      obtain rfl : cell = c := by simpa using hi
      refine ⟨w, ?_, hderef⟩
      rw [Nat.add_zero, hk.unseen _ unseen_pend_self]
      exact hw
  | succ i =>
      have hrest := h i c (by simpa using hi)
      simp only [Scope.pend, List.length_append, List.length_singleton] at hrest
      rwa [show sc.locals.length + (i + 1) = sc.locals.length + 1 + i by omega]

/-- A binding and those behind it. -/
theorem bindings_cons {c₁ : Compiler} {σ₁ : Interp} {F₁ : List Val}
    {cell : Cell} (values : List Cell) (names : List Symbol)
    (h₁ : Compiler.Grows c c₁) (h₂ : Compiler.Grows c₁ c') (hs : isAnaphoric s = false)
    (hg₁ : R.Goes p F T (p + (emitted c c₁).length) F₁ T) (hr₁ : R.Rel sc F₁ σ₁)
    (hk₁ : Kept sc F σ F₁ σ₁) (hw : F₁[sc.locals.length]? = some w)
    (hderef : w.deref R.globals = .value cell)
    (hrest : (c'.locals = (sc.pend s).locals ++ names.map some ∧
        c'.locals.length ≤ NewLispNeo.maxLocals) ∧
      ∃ F', R.Goes (p + (emitted c c₁).length) F₁ T
          (p + (emitted c c₁).length + (emitted c₁ c').length) F' T ∧
        R.Rel (sc.pend s) F' σ' ∧ Kept (sc.pend s) F₁ σ₁ F' σ' ∧
        R.Slots (sc.pend s) F' values) :
    (c'.locals = sc.locals ++ (s :: names).map some ∧
      c'.locals.length ≤ NewLispNeo.maxLocals) ∧
    ∃ F', R.Goes p F T (p + (emitted c c').length) F' T ∧ R.Rel sc F' σ' ∧
      Kept sc F σ F' σ' ∧ R.Slots sc F' (cell :: values) := by
  obtain ⟨⟨hlocals, hfew⟩, F', hg, hr, hk, hslots⟩ := hrest
  refine ⟨⟨?_, hfew⟩, F', ?_, hr₁.unpend hr hk hs, hk₁.trans hk.unpend,
    hslots.cons hk hw hderef⟩
  · rw [hlocals, Scope.pend, List.append_assoc]
    rfl
  · rw [h₁.emitted_trans h₂, List.length_append, ← Nat.add_assoc]
    exact hg₁.trans hg

/-- The bindings of a `let`: the initialisers see the variables from outside. -/
theorem bindings_arrive (hsim : R.Simulates ev follows leavesOf)
    (hc : compileBindings R.ctx.compile inits c = .value c')
    (hev : letInits ev σ inits = .value (list, σ'))
    (hf : InitsFollows ev follows leavesOf sc σ inits)
    (hplain : ∀ s ∈ bindingSymbols inits, isAnaphoric s = false)
    (hcode : R.Code p (emitted c c')) (hlinks : R.Links c') (hlocals : sc.locals = c.locals)
    (hr : R.Rel sc F σ) :
    (c'.locals = sc.locals ++ (bindingSymbols inits).map some ∧
      c'.locals.length ≤ NewLispNeo.maxLocals) ∧
    ∃ F', R.Goes p F T (p + (emitted c c').length) F' T ∧ R.Rel sc F' σ' ∧
      Kept sc F σ F' σ' ∧ R.Slots sc F' (list.map Prod.snd) := by
  induction inits using bindingSymbols.induct generalizing c p F σ sc list with
  | case1 s init inits ih =>
      simp only [compileBindings, Outcome.bind_eq_value_iff, Prod.exists] at hc
      obtain ⟨slot, c₁, hadd, c₂, hinit, hc⟩ := hc
      simp only [letInits, Outcome.bind_eq_value_iff, Prod.exists, Outcome.value.injEq,
        Prod.mk.injEq] at hev
      obtain ⟨v, σ₁, hv, rest, σ₂, hrest, rfl, rfl⟩ := hev
      simp only [InitsFollows, After.of_value hv] at hf
      simp only [bindingSymbols, List.forall_mem_cons] at hplain ⊢
      have hext₁ := compileFirst_ext hinit
      have hgrow₁ : Compiler.Grows c (c₂.emitStoreLocal slot) :=
        (addLocal_grows hadd).trans (hext₁.emitStoreLocal slot).toGrows
      have hgrow₂ := compileBindings_ext hc
      rw [hgrow₁.emitted_trans hgrow₂, code_append] at hcode
      obtain ⟨F₁, hg₁, hr₁, hr₁', hk₁, w, hw, hderef⟩ := binding_arrives (T := T) hadd hext₁
        hlocals hr hplain.1 hcode.1 (hlinks.of_pools hgrow₂.pools) fun hr' hp' =>
          first_arrives hsim hinit hv hf.1 hp' hr'
      exact bindings_cons _ _ hgrow₁ hgrow₂ hplain.1 hg₁ hr₁ hk₁ hw hderef
        (ih hc hrest hf.2 hplain.2 hcode.2 (locals_pend hadd hext₁ hlocals) hr₁')
  | case2 s =>
      simp only [compileBindings, Outcome.bind_eq_value_iff, Prod.exists,
        Outcome.value.injEq] at hc
      obtain ⟨slot, c₁, hadd, rfl⟩ := hc
      simp only [letInits, Outcome.value.injEq, Prod.mk.injEq] at hev
      obtain ⟨rfl, rfl⟩ := hev
      simp only [bindingSymbols, List.forall_mem_cons] at hplain ⊢
      have hext₁ := (Extends.refl c₁).emitOp .nil
      have hgrow₁ : Compiler.Grows c ((c₁.emitOp .nil).emitStoreLocal slot) :=
        (addLocal_grows hadd).trans (hext₁.emitStoreLocal slot).toGrows
      obtain ⟨F₁, hg₁, hr₁, hr₁', hk₁, w, hw, hderef⟩ := binding_arrives (T := T) hadd hext₁
        hlocals hr hplain.1 hcode hlinks fun hr' hp' =>
          first_arrives hsim (rfl : compileFirst _ [] false _ = _) rfl trivial hp' hr'
      have hlocals₂ := locals_pend hadd hext₁ hlocals
      refine bindings_cons [] [] hgrow₁ (Compiler.Grows.refl _) hplain.1 hg₁ hr₁
        hk₁ hw hderef ⟨⟨by simp [← hlocals₂], ?_⟩, F₁, ?_, hr₁', Kept.refl _ _ _, fun i c hc => by
          simp at hc⟩
      · rw [← hlocals₂]
        exact hr₁'.few
      · rw [emitted_self]
        exact Goes.refl
  | case3 s init inits ih =>
      simp only [compileBindings, Outcome.bind_eq_value_iff, Prod.exists] at hc
      obtain ⟨slot, c₁, hadd, c₂, hinit, hc⟩ := hc
      simp only [letInits, Outcome.bind_eq_value_iff, Prod.exists, Outcome.value.injEq,
        Prod.mk.injEq] at hev
      obtain ⟨v, σ₁, hv, rest, σ₂, hrest, rfl, rfl⟩ := hev
      simp only [InitsFollows, After.of_value hv] at hf
      simp only [bindingSymbols, List.forall_mem_cons] at hplain ⊢
      have hext₁ := compileExpr_extends hinit
      have hgrow₁ : Compiler.Grows c (c₂.emitStoreLocal slot) :=
        (addLocal_grows hadd).trans (hext₁.emitStoreLocal slot).toGrows
      have hgrow₂ := compileBindings_ext hc
      rw [hgrow₁.emitted_trans hgrow₂, code_append] at hcode
      obtain ⟨F₁, hg₁, hr₁, hr₁', hk₁, w, hw, hderef⟩ := binding_arrives (T := T) hadd hext₁
        hlocals hr hplain.1 hcode.1 (hlinks.of_pools hgrow₂.pools) fun hr' hp' =>
          first_arrives hsim (by exact hinit : compileFirst _ [init] false _ = _) hv hf.1
            hp' hr'
      exact bindings_cons _ _ hgrow₁ hgrow₂ hplain.1 hg₁ hr₁ hk₁ hw hderef
        (ih hc hrest hf.2 hplain.2 hcode.2 (locals_pend hadd hext₁ hlocals) hr₁')
  | case4 inits h₁ h₂ h₃ =>
      obtain rfl := eq_nil_of_letInits h₁ h₂ h₃ hev
      simp only [compileBindings, Outcome.value.injEq] at hc
      simp only [letInits, Outcome.value.injEq, Prod.mk.injEq] at hev
      obtain ⟨rfl, rfl⟩ := hev
      subst hc
      refine ⟨⟨by simp [bindingSymbols, hlocals], ?_⟩, F, ?_, hr, Kept.refl sc F σ,
        fun i c hc => by simp at hc⟩
      · rw [← hlocals]
        exact hr.few
      · rw [emitted_self]
        exact Goes.refl

/-- The body of a `let` or a `local`, once its variables are bound. -/
theorem block_arrives {body : List Cell} {σ₁ : Interp} {saved : Environment}
    (hsim : R.Simulates ev follows leavesOf)
    (hc : compileBody R.ctx.compile body isTail c = .value c')
    (hbind : letBind R.ctx.compile.flags σ₁ [] list = .value (σ₂, saved))
    (hev : letBody ev σ₂ saved body = .value (v, σ'))
    (hf : BlockFollows ev follows (sc.enter (list.map Prod.fst)) σ₂ body)
    (hplain : ∀ s ∈ list.map Prod.fst, isAnaphoric s = false)
    (hlocals : c.locals = sc.locals ++ (list.map Prod.fst).map some)
    (hfew : c.locals.length ≤ NewLispNeo.maxLocals)
    (hslots : R.Slots sc F (list.map Prod.snd)) (hcode : R.Code p (emitted c c'))
    (hlinks : R.Links c') (hr : R.Rel sc F σ₁) :
    R.Arrives sc p (p + (emitted c c').length) F T σ₁ v σ'
      (BlockLeaves ev leavesOf · σ₂ body) := by
  simp only [letBody, Outcome.bind_eq_value_iff, Prod.exists, Outcome.value.injEq,
    Prod.mk.injEq] at hev
  obtain ⟨result, σ₃, hblock, rfl, rfl⟩ := hev
  rw [hlocals, List.length_append, List.length_map, List.length_map] at hfew
  have hr₂ := hr.enter hbind hplain hfew hslots
  have hp : R.Placed (sc.enter (list.map Prod.fst)) c c' p := ⟨hcode, hlinks, hlocals.symm⟩
  obtain ⟨F', w, cell, hg, hw, hl, hr₃, hk⟩ := body_arrives (T := T) (w := Val.nilCell) hsim hc
    hblock (fun _ => rfl) hf hp hr₂
  obtain ⟨hr', hk'⟩ := hr.leave (τ := restoreEnvironment σ₃ saved) hr₃ hk
    (letBind_spec hbind).2.1 (restoreEnvironment_contents hbind σ₃)
  refine ⟨F', w, cell, hg, hw, fun d => ?_, hr', hk'⟩
  rw [hl d]
  split
  · rename_i hnil
    subst hnil
    simp only [evaluateBlock, evaluateBlockFrom, Outcome.value.injEq, Prod.mk.injEq] at hblock
    rw [← hblock.1]
  · rfl

/-- The variables of a form are none that the tree-walker binds on its own. -/
theorem plain_of_letBind {flags : SymbolFlags} {saved : Environment}
    (hanaphoric : ∀ s, isAnaphoric s = true → isProtected flags s = true)
    (hbind : letBind flags σ [] list = .value (σ₂, saved)) :
    ∀ s ∈ list.map Prod.fst, isAnaphoric s = false := by
  intro s hs
  have hprot := (letBind_spec hbind).1 s hs
  by_contra h
  rw [hanaphoric s (by simpa using h)] at hprot
  cases hprot

/-- The symbols of the list are those of the bindings. -/
theorem letInits_symbols (h : letInits ev σ inits = .value (list, σ')) :
    list.map Prod.fst = bindingSymbols inits := by
  induction inits using bindingSymbols.induct generalizing σ list with
  | case1 s init inits ih =>
      simp only [letInits, Outcome.bind_eq_value_iff, Prod.exists, Outcome.value.injEq,
        Prod.mk.injEq] at h
      obtain ⟨v, σ₁, -, rest, σ₂, hrest, rfl, rfl⟩ := h
      rw [List.map_cons, ih hrest, bindingSymbols]
  | case2 s =>
      simp only [letInits, Outcome.value.injEq, Prod.mk.injEq] at h
      obtain ⟨rfl, rfl⟩ := h
      rfl
  | case3 s init inits ih =>
      simp only [letInits, Outcome.bind_eq_value_iff, Prod.exists, Outcome.value.injEq,
        Prod.mk.injEq] at h
      obtain ⟨v, σ₁, -, rest, σ₂, hrest, rfl, rfl⟩ := h
      rw [List.map_cons, ih hrest, bindingSymbols]
  | case4 inits h₁ h₂ h₃ =>
      obtain rfl := eq_nil_of_letInits h₁ h₂ h₃ h
      simp only [letInits, Outcome.value.injEq, Prod.mk.injEq] at h
      rw [← h.1]
      rfl

/-- The code of a `let`. -/
theorem let_arrives (hsim : R.Simulates ev follows leavesOf)
    (hanaphoric : ∀ s, isAnaphoric s = true → isProtected R.ctx.compile.flags s = true)
    (hc : compileLet R.ctx.compile args isTail c = .value c')
    (hev : pLet ev R.ctx.compile.flags σ args = .value (v, σ'))
    (hf : LetFollows ev follows leavesOf R.ctx.compile.flags sc σ args)
    (hp : R.Placed sc c c' p) (hr : R.Rel sc F σ) :
    R.Arrives sc p (p + (emitted c c').length) F T σ v σ'
      (LetLeaves ev leavesOf R.ctx.compile.flags · σ args) := by
  obtain _ | ⟨head, body⟩ := args
  · simp [compileLet] at hc
  cases head with
  | expression inits =>
      rw [compileLet] at hc
      simp only [Outcome.bind_eq_value_iff, Outcome.value.injEq] at hc
      obtain ⟨c₁, hinits, c₂, hbody, rfl⟩ := hc
      simp only [pLet, Outcome.bind_eq_value_iff, Prod.exists] at hev
      obtain ⟨list, σ₁, hlist, σ₂, saved, hbind, hev⟩ := hev
      have hinlet : ∀ P, InLet ev R.ctx.compile.flags σ inits P ↔ P σ₂ := by
        refine fun P => ⟨fun h => h _ _ _ _ hlist hbind, fun h list' σ₁' σ₂' saved' hl hb => ?_⟩
        cases hlist.symm.trans hl
        cases hbind.symm.trans hb
        exact h
      obtain ⟨hf, hfbody⟩ := hf
      rw [hinlet, Scope.bound_bindingScope, ← letInits_symbols hlist] at hfbody
      have hplain := plain_of_letBind hanaphoric hbind
      have hgrow₁ := compileBindings_ext hinits
      have hext₂ := compileBody_ext hbody
      have hem : emitted c (c₂.restoreLocals c.locals.length) =
          emitted c c₁ ++ emitted c₁ c₂ := (hgrow₁.emitted_trans hext₂.toGrows :)
      have hcode := hp.code
      have hlinks₂ : R.Links c₂ := ⟨hp.links.constants, hp.links.symbols, hp.links.maxLocals⟩
      rw [hem, code_append] at hcode
      rw [hem, List.length_append, ← Nat.add_assoc]
      obtain ⟨⟨hlocals, hfew⟩, F₁, hg, hr₁, hk₁, hslots⟩ := bindings_arrive (T := T) hsim hinits
        hlist hf (by rwa [← letInits_symbols hlist]) hcode.1
        (hlinks₂.of_pools hext₂.pools) hp.locals hr
      rw [← letInits_symbols hlist] at hlocals
      have hblock := block_arrives (T := T) hsim hbody hbind hev hfbody hplain hlocals hfew
        hslots hcode.2 hlinks₂ hr₁
      exact (hblock.after hg hk₁).congr fun d => hinlet _
  | _ => simp [compileLet] at hc

/-- The variables of a `local` in their slots. -/
theorem vars_arrive {vars : List Symbol}
    (hc : compileVars (vars.map .symbol) c = .value c') (hcode : R.Code p (emitted c c'))
    (hlinks : R.Links c') (hplain : ∀ s ∈ vars, isAnaphoric s = false)
    (hlocals : sc.locals = c.locals) (hr : R.Rel sc F σ) :
    (c'.locals = sc.locals ++ vars.map some ∧ c'.locals.length ≤ NewLispNeo.maxLocals) ∧
    ∃ F', R.Goes p F T (p + (emitted c c').length) F' T ∧ R.Rel sc F' σ ∧
      Kept sc F σ F' σ ∧ R.Slots sc F' (vars.map fun _ => .nil) := by
  induction vars generalizing c p F sc with
  | nil =>
      simp only [List.map_nil, compileVars, Outcome.value.injEq] at hc
      subst hc
      refine ⟨⟨by simp [hlocals], ?_⟩, F, ?_, hr, Kept.refl sc F σ, fun i c hc => by simp at hc⟩
      · rw [← hlocals]
        exact hr.few
      · rw [emitted_self]
        exact Goes.refl
  | cons s vars ih =>
      simp only [List.map_cons, compileVars, Outcome.bind_eq_value_iff, Prod.exists] at hc
      obtain ⟨slot, c₁, hadd, hc⟩ := hc
      rw [List.forall_mem_cons] at hplain
      have hext₁ := (Extends.refl c₁).emitOp .nil
      have hgrow₁ : Compiler.Grows c ((c₁.emitOp .nil).emitStoreLocal slot) :=
        (addLocal_grows hadd).trans (hext₁.emitStoreLocal slot).toGrows
      have hgrow₂ : Compiler.Grows _ c' := compileVars_grows hc
      rw [hgrow₁.emitted_trans hgrow₂, code_append] at hcode
      obtain ⟨F₁, hg₁, hr₁, hr₁', hk₁, w, hw, hderef⟩ := binding_arrives (v := Val.nilCell)
        (T := T) hadd hext₁ hlocals hr hplain.1 hcode.1 (hlinks.of_pools hgrow₂.pools)
        fun hr' hp' => ⟨fun _ => True, trivial, by
          rw [emitted_emitOp]
          exact .of_goes (goes_nil hp'.op) rfl hr' (by simp)⟩
      exact bindings_cons _ _ hgrow₁ hgrow₂ hplain.1 hg₁ hr₁ hk₁ hw hderef
        (ih hc hcode.2 hplain.2 (locals_pend hadd hext₁ hlocals) hr₁')

/-- The code of a `local`. -/
theorem local_arrives (hsim : R.Simulates ev follows leavesOf)
    (hanaphoric : ∀ s, isAnaphoric s = true → isProtected R.ctx.compile.flags s = true)
    (hc : compileLocal R.ctx.compile args isTail c = .value c')
    (hev : pLocal ev R.ctx.compile.flags σ args = .value (v, σ'))
    (hf : LocalFollows ev follows R.ctx.compile.flags sc σ args)
    (hp : R.Placed sc c c' p) (hr : R.Rel sc F σ) :
    R.Arrives sc p (p + (emitted c c').length) F T σ v σ'
      (LocalLeaves ev leavesOf R.ctx.compile.flags · σ args) := by
  obtain _ | ⟨head, body⟩ := args
  · simp [compileLocal] at hc
  cases head with
  | expression vars =>
      rw [compileLocal] at hc
      simp only [Outcome.bind_eq_value_iff, Outcome.value.injEq] at hc
      obtain ⟨c₁, hvars, c₂, hbody, rfl⟩ := hc
      simp only [pLocal, Outcome.bind_eq_value_iff, Prod.exists] at hev
      obtain ⟨σ₂, saved, hlocal, hev⟩ := hev
      obtain ⟨hsymbols, hbind⟩ := localBind_eq hlocal
      have hfst : ((localSymbols vars).map (·, Cell.nil)).map Prod.fst = localSymbols vars := by
        simp [Function.comp_def]
      have hplain := plain_of_letBind hanaphoric hbind
      have hfbody : BlockFollows ev follows
          (sc.enter (((localSymbols vars).map (·, Cell.nil)).map Prod.fst)) σ₂ body := by
        rw [hfst]
        exact hf σ₂ saved hlocal
      have hgrow₁ : Compiler.Grows c c₁ := compileVars_grows hvars
      have hext₂ := compileBody_ext hbody
      have hem : emitted c (c₂.restoreLocals c.locals.length) =
          emitted c c₁ ++ emitted c₁ c₂ := (hgrow₁.emitted_trans hext₂.toGrows :)
      have hcode := hp.code
      have hlinks₂ : R.Links c₂ := ⟨hp.links.constants, hp.links.symbols, hp.links.maxLocals⟩
      rw [hem, code_append] at hcode
      rw [hem, List.length_append, ← Nat.add_assoc]
      rw [hsymbols] at hvars
      obtain ⟨⟨hlocals, hfew⟩, F₁, hg, hr₁, hk₁, hslots⟩ := vars_arrive (T := T) hvars hcode.1
        (hlinks₂.of_pools hext₂.pools) (by rwa [hfst] at hplain) hp.locals hr
      rw [← hfst] at hlocals
      have hblock := block_arrives (T := T) hsim hbody hbind hev hfbody hplain hlocals hfew
        (by simpa [Function.comp_def] using hslots) hcode.2 hlinks₂ hr₁
      refine (hblock.after hg hk₁).congr fun d => ?_
      refine ⟨fun h => h σ₂ saved hlocal, fun h σ₁' saved' hl => ?_⟩
      cases hlocal.symm.trans hl
      exact h
  | _ => simp [compileLocal] at hc

end Forms

end Run

end NewLispNeo
