/-
The scope of a `let` or a `local` in the machine and in the tree-walker: where the new
variables are, and what is as before when they are gone.
-/
import NewLispNeo.Conditionals

namespace NewLispNeo

open Compiler

namespace Scope

variable {sc : Scope} {s t : Symbol} {k : Nat} {symbols : List Symbol}

/-- The scope in which some variables more are bound. -/
def enter (sc : Scope) (symbols : List Symbol) : Scope :=
  bound ⟨sc.locals ++ symbols.map some, sc.hidden⟩ symbols

theorem slot_lt (h : sc.slot s = some k) : k < sc.locals.length := by
  have := (findLocalFrom_range h).2
  omega

/-- A slot belongs to one symbol. -/
theorem getElem?_of_slot (h : sc.slot s = some k) : sc.locals[k]? = some (some s) := by
  have hget : ∀ (l : List (Option Symbol)) (i : Nat), findLocalFrom s i l = some k →
      l[k - i]? = some (some s) := by
    intro l
    induction l with
    | nil =>
        intro i hi
        cases hi
    | cons o l ih =>
        intro i hi
        rw [findLocalFrom] at hi
        cases hrec : findLocalFrom s (i + 1) l with
        | some j =>
            rw [hrec] at hi
            obtain rfl := Option.some.inj hi
            have hle := (findLocalFrom_range hrec).1
            rw [show j - i = (j - (i + 1)) + 1 by omega]
            exact ih (i + 1) hrec
        | none =>
            simp only [hrec] at hi
            split at hi
            · obtain rfl := Option.some.inj hi
              simpa
            · cases hi
  exact hget sc.locals 0 h

theorem slot_injective (hs : sc.slot s = some k) (ht : sc.slot t = some k) : s = t := by
  have h := (getElem?_of_slot hs).symm.trans (getElem?_of_slot ht)
  exact Option.some.inj (Option.some.inj h)

/-- The slots of the symbols that come last count first. -/
theorem findLocalFrom_append (l l' : List (Option Symbol)) (i : Nat) :
    findLocalFrom s i (l ++ l') =
      (findLocalFrom s (i + l.length) l').or (findLocalFrom s i l) := by
  induction l generalizing i with
  | nil => simp [findLocalFrom]
  | cons o l ih =>
      simp only [List.cons_append, findLocalFrom, ih, List.length_cons]
      rw [show i + (l.length + 1) = i + 1 + l.length by omega]
      cases findLocalFrom s (i + 1 + l.length) l' <;> rfl

theorem slot_pend_self : (sc.pend s).slot s = some sc.locals.length := by
  rw [slot, pend, findLocalFrom_append]
  simp [findLocalFrom]

theorem slot_pend_ne (h : t ≠ s) : (sc.pend s).slot t = sc.slot t := by
  rw [slot, pend, findLocalFrom_append]
  simp [findLocalFrom, slot, h.symm]

theorem slot_enter (sc : Scope) (symbols : List Symbol) (s : Symbol) :
    (sc.enter symbols).slot s =
      (findLocalFrom s sc.locals.length (symbols.map some)).or (sc.slot s) := by
  rw [slot, enter, bound, findLocalFrom_append, Nat.zero_add, slot]

theorem slot_enter_of_not_mem (h : s ∉ symbols) : (sc.enter symbols).slot s = sc.slot s := by
  rw [slot_enter, findLocalFrom_params_none.mpr h, Option.none_or]

theorem exists_slot_enter (sc : Scope) (h : s ∈ symbols) : ∃ k, (sc.enter symbols).slot s = some k ∧
    findLocalFrom s sc.locals.length (symbols.map some) = some k ∧ sc.locals.length ≤ k := by
  cases hk : findLocalFrom s sc.locals.length (symbols.map some) with
  | none => exact absurd h (findLocalFrom_params_none.mp hk)
  | some k =>
      refine ⟨k, ?_, rfl, (findLocalFrom_range hk).1⟩
      rw [slot_enter, hk, Option.some_or]

theorem mem_hidden_enter : s ∈ (sc.enter symbols).hidden ↔ s ∈ sc.hidden ∧ s ∉ symbols := by
  simp [enter, bound]

theorem bindingScope_eq (sc : Scope) (inits : List Cell) :
    bindingScope sc inits = ⟨sc.locals ++ (bindingSymbols inits).map some,
      (bindingSymbols inits).reverse ++ sc.hidden⟩ := by
  induction sc, inits using bindingScope.induct with
  | case1 sc s init inits ih =>
      rw [bindingScope, ih, bindingSymbols, pend]
      simp
  | case2 sc s =>
      rw [bindingScope, bindingSymbols, pend]
      simp
  | case3 sc s init inits ih =>
      rw [bindingScope, ih, bindingSymbols, pend]
      simp
  | case4 sc inits h₁ h₂ h₃ =>
      rw [bindingScope, bindingSymbols]
      · simp
      all_goals assumption

theorem bound_bindingScope (sc : Scope) (inits : List Cell) :
    (bindingScope sc inits).bound (bindingSymbols inits) = sc.enter (bindingSymbols inits) := by
  rw [bindingScope_eq, bound, enter, bound]
  simp

end Scope

section Environments

variable {flags : SymbolFlags} {σ σ' τ : Interp} {saved saved' : Environment}
  {list : List (Symbol × Cell)} {s : Symbol} {i k : Nat}

/-- What the variables of a `let` are bound to, and what they bring back in the end. -/
theorem letBind_spec (h : letBind flags σ saved list = .value (σ', saved')) :
    (∀ t ∈ list.map Prod.fst, isProtected flags t = false) ∧
    (∀ t, t ∉ list.map Prod.fst → σ'.contents t = σ.contents t) ∧
    (∀ t i k, findLocalFrom t i ((list.map Prod.fst).map some) = some k →
      (list.map Prod.snd)[k - i]? = some (σ'.contents t)) ∧
    ∀ τ, ∃ τ', restoreEnvironment τ saved' = restoreEnvironment τ' saved ∧
      ∀ t, τ'.contents t =
        if t ∈ list.map Prod.fst then σ.contents t else τ.contents t := by
  induction list generalizing σ saved with
  | nil =>
      simp only [letBind, Outcome.value.injEq, Prod.mk.injEq] at h
      obtain ⟨rfl, rfl⟩ := h
      refine ⟨by simp, by simp, ?_, fun τ => ⟨τ, rfl, by simp⟩⟩
      intro t i k hk
      cases hk
  | cons p list ih =>
      obtain ⟨s, c⟩ := p
      simp only [letBind, Outcome.bind_eq_value_iff, Prod.exists] at h
      obtain ⟨σ₁, saved₁, hpush, h⟩ := h
      unfold pushSymbol at hpush
      split at hpush
      · cases hpush
      · rename_i hs
        simp only [Outcome.value.injEq, Prod.mk.injEq] at hpush
        obtain ⟨rfl, rfl⟩ := hpush
        obtain ⟨hprot, hother, hvals, hback⟩ := ih h
        simp only [List.map_cons]
        refine ⟨?_, fun t ht => ?_, fun t i k hk => ?_, fun τ => ?_⟩
        · intro t ht
          rcases List.mem_cons.mp ht with rfl | ht
          · simpa using hs
          · exact hprot t ht
        · rw [List.mem_cons, not_or] at ht
          rw [hother t ht.2, Interp.bindNew_contents_ne _ _ ht.1]
        · rw [findLocalFrom] at hk
          cases hrec : findLocalFrom t (i + 1) ((list.map Prod.fst).map some) with
          | some j =>
              rw [hrec] at hk
              obtain rfl := Option.some.inj hk
              have hle := (findLocalFrom_range hrec).1
              rw [show j - i = (j - (i + 1)) + 1 by omega, List.getElem?_cons_succ]
              exact hvals t (i + 1) j hrec
          | none =>
              have hmem := findLocalFrom_params_none.mp hrec
              simp only [hrec] at hk
              split at hk
              · rename_i hst
                obtain rfl := Option.some.inj hk
                obtain rfl := Option.some.inj hst
                rw [hother s hmem, Interp.bindNew_contents_self]
                simp
              · cases hk
        · obtain ⟨τ', heq, hτ'⟩ := hback τ
          refine ⟨τ'.setBind s (σ.bind s), heq, fun t => ?_⟩
          by_cases hts : t = s
          · subst hts
            rw [Interp.setBind_contents_self, if_pos List.mem_cons_self]
            rfl
          · rw [Interp.setBind_contents_ne _ _ hts, hτ' t,
              Interp.bindNew_contents_ne _ _ hts]
            simp only [List.mem_cons, hts, false_or]

/-- The variables are what they were once a block is left. -/
theorem restoreEnvironment_contents (h : letBind flags σ [] list = .value (σ', saved))
    (τ : Interp) (t : Symbol) :
    (restoreEnvironment τ saved).contents t =
      if t ∈ list.map Prod.fst then σ.contents t else τ.contents t := by
  obtain ⟨τ', heq, hτ'⟩ := (letBind_spec h).2.2.2 τ
  rw [heq]
  exact hτ' t

/-- A `local` is a `let` whose values are `nil`. -/
theorem localBind_eq {vars : List Cell} (h : localBind flags σ saved vars = .value (σ', saved')) :
    vars = (localSymbols vars).map .symbol ∧
      letBind flags σ saved ((localSymbols vars).map (·, .nil)) = .value (σ', saved') := by
  induction vars generalizing σ saved with
  | nil => exact ⟨rfl, h⟩
  | cons var vars ih =>
      cases var with
      | symbol s =>
          simp only [localBind, Outcome.bind_eq_value_iff, Prod.exists] at h
          obtain ⟨σ₁, saved₁, hpush, h⟩ := h
          obtain ⟨hvars, hbind⟩ := ih h
          refine ⟨?_, ?_⟩
          · rw [localSymbols, List.map_cons, ← hvars]
          · simp only [localSymbols, List.map_cons, letBind, hpush, Outcome.value_bind, hbind]
      | _ => simp [localBind] at h

end Environments

end NewLispNeo
