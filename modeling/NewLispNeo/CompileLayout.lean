/-
The compiler lays out the structured code of every expression, form by form.
-/
import NewLispNeo.Layout
import NewLispNeo.Parameters

namespace NewLispNeo

open Compiler Code

theorem slotOf_lt {locals : List (Option Symbol)} {s : Symbol} {slot : Nat}
    (h : slotOf locals s = some slot) : slot < locals.length := by
  have hrange := (findLocalFrom_range h).2
  omega

theorem compileSymbol_lays (ctx : CompileContext) (s : Symbol)
    (c : Compiler) :
    Lays c (compileSymbol ctx s c) (symbolCode ctx c.locals s) := by
  unfold compileSymbol symbolCode
  have hslot : c.findLocal s = slotOf c.locals s := rfl
  rw [hslot]
  cases hfind : slotOf c.locals s with
  | some slot => exact lays_load c (slotOf_lt hfind)
  | none =>
      by_cases hself : ctx.selfSymbol = some s ∨ s.name = "self"
      · simp only [if_pos hself]
        exact lays_op rfl c
      · simp only [if_neg hself]
        exact lays_loadGlobal c s

theorem emitConstant_lays {rt : Runtime} {c c' : Compiler} {val : Cell}
    (h : c.emitConstant rt val = .value c') : Lays c c' (op .const) := by
  simp only [emitConstant, Outcome.bind_eq_value_iff, Prod.exists,
    Outcome.value.injEq] at h
  obtain ⟨i, c₁, hadd, rfl⟩ := h
  have hsame : c₁.jumps = c.jumps ∧ c₁.locals = c.locals ∧
      c₁.maxLocals = c.maxLocals := by
    simp only [addConstant, Outcome.bind_eq_value_iff] at hadd
    obtain ⟨val', -, found, -, hadd⟩ := hadd
    cases found with
    | none =>
        simp only [Outcome.value.injEq, Prod.mk.injEq] at hadd
        rw [← hadd.2]
        exact ⟨rfl, rfl, rfl⟩
    | some j =>
        simp only [Outcome.value.injEq, Prod.mk.injEq] at hadd
        rw [← hadd.2]
        exact ⟨rfl, rfl, rfl⟩
  refine lays_instr (o := Machine.operand i)
    (slots_instr (Nat.zero_le _) hsame.2.1 hsame.2.2) ?_ hsame.1 rfl
    (by simp [Instr.argBytes])
  rw [emitUint16_code, emitOp_code, (addConstant_eq hadd).1]
  simp

/-- A new local is no code. -/
theorem addLocal_lays {c c₁ c' : Compiler} {s : Option Symbol} {slot : Nat}
    {code : Code} (h : c.addLocal s = .value (slot, c₁))
    (h' : Lays c₁ c' code) : Lays c c' code := by
  obtain ⟨-, -, rfl⟩ := addLocal_eq h
  refine ⟨fun hscope => ?_, h'.code_eq, h'.size_eq, h'.stands, h'.jumps⟩
  obtain ⟨hlocals, hle, hall⟩ := h'.slots
    (by simp only [List.length_append, List.length_singleton]; omega)
  exact ⟨hlocals, (le_max_left _ _).trans hle, hall⟩

theorem addLocal_locals {c c₁ : Compiler} {s : Option Symbol} {slot : Nat}
    (h : c.addLocal s = .value (slot, c₁)) :
    c₁.locals = c.locals ++ [s] ∧ slot = c.locals.length := by
  obtain ⟨hslot, -, rfl⟩ := addLocal_eq h
  exact ⟨rfl, hslot⟩

theorem restoreLocals_lays {c c' : Compiler} {code : Code} (n : Nat)
    (h : Lays c c' code) : Lays c (c'.restoreLocals n) code := by
  refine ⟨fun hscope => ?_, h.code_eq, h.size_eq, h.stands, h.jumps⟩
  obtain ⟨hlocals, hle, hall⟩ := h.slots hscope
  refine ⟨?_, hle, hall⟩
  have htake : (c'.restoreLocals n).locals = c'.locals.take n := rfl
  rw [htake]
  exact (List.length_take_le' _ _).trans hlocals

theorem emitLoadLocal_locals (c : Compiler) (slot : Nat) :
    (c.emitLoadLocal slot).locals = c.locals :=
  ((Extends.refl c).emitLoadLocal slot).locals_eq

theorem emitStoreLocal_locals (c : Compiler) (slot : Nat) :
    (c.emitStoreLocal slot).locals = c.locals :=
  ((Extends.refl c).emitStoreLocal slot).locals_eq

theorem length_lt_of_store {c : Compiler} {slot : Nat}
    {locals : List (Option Symbol)} {s : Option Symbol}
    (h : (c.emitStoreLocal slot).locals = locals ++ [s]) :
    locals.length < c.locals.length := by
  rw [emitStoreLocal_locals] at h
  simp [h]

theorem compileVars_lays {l : List Cell} {c c' : Compiler}
    (h : compileVars l c = .value c') :
    Lays c c' (varsCode l c.locals.length) ∧
      c'.locals = c.locals ++ varLocals l := by
  induction l generalizing c with
  | nil =>
      simp only [compileVars, Outcome.value.injEq] at h
      subst h
      exact ⟨Lays.skip c, by simp [varLocals]⟩
  | cons v vars ih =>
      cases v with
      | symbol s =>
          simp only [compileVars, Outcome.bind_eq_value_iff, Prod.exists] at h
          obtain ⟨slot, c₁, h₁, h₂⟩ := h
          obtain ⟨hlocals, rfl⟩ := addLocal_locals h₁
          have hslot : c.locals.length < c₁.locals.length := by simp [hlocals]
          have hstore := addLocal_lays h₁
            ((lays_op (o := .nil) rfl c₁).append
              (lays_store (c₁.emitOp .nil) hslot))
          have hloc : ((c₁.emitOp .nil).emitStoreLocal
              c.locals.length).locals = c.locals ++ [some s] := by
            rw [(((Extends.refl c₁).emitOp .nil).emitStoreLocal
              c.locals.length).locals_eq, hlocals]
          obtain ⟨hrest, hlast⟩ := ih h₂
          rw [hloc, List.length_append] at hrest
          refine ⟨hstore.append hrest, ?_⟩
          rw [hlast, hloc, varLocals, List.append_assoc]
          rfl
      | _ => simp [compileVars] at h

theorem compareOpcode_isPlain {name : String} {o : VmOpcode}
    (h : compareOpcode name = some o) : Instr.isPlain o = true := by
  unfold compareOpcode at h
  repeat' split at h
  all_goals cases h <;> rfl

/-- The expressions smaller than `n` are laid out. -/
def SmallLays (ctx : CompileContext) (n : Nat) : Prop :=
  ∀ e, sizeOf e < n → ∀ isTail c c', compileExpr ctx e isTail c = .value c' →
    Lays c c' (exprCode ctx e isTail c.locals)

section

variable {ctx : CompileContext} {n : Nat} (ih : SmallLays ctx n)
  {l : List Cell} {isTail : Bool} {c c' : Compiler}

include ih

theorem compileArgs_lays (hl : sizeOf l < n)
    (h : compileArgs ctx l c = .value c') :
    Lays c c' (argsCode ctx l c.locals) := by
  induction l generalizing c with
  | nil =>
      simp only [compileArgs, Outcome.value.injEq] at h
      exact h ▸ Lays.skip c
  | cons arg args ihl =>
      simp only [compileArgs, Outcome.bind_eq_value_iff] at h
      obtain ⟨c₁, h₁, h₂⟩ := h
      simp only [List.cons.sizeOf_spec] at hl
      have hrest := ihl (by omega) h₂
      rw [(compileExpr_extends h₁).locals_eq] at hrest
      exact (ih arg (by omega) _ _ _ h₁).append hrest

theorem compileBody_lays (hl : sizeOf l < n)
    (h : compileBody ctx l isTail c = .value c') :
    Lays c c' (bodyCode ctx l isTail c.locals) := by
  induction l generalizing c with
  | nil =>
      simp only [compileBody, Outcome.value.injEq] at h
      exact h ▸ lays_op rfl c
  | cons body rest ihl =>
      simp only [List.cons.sizeOf_spec] at hl
      cases rest with
      | nil =>
          simp only [compileBody] at h
          exact ih body (by omega) _ _ _ h
      | cons e rest =>
          simp only [compileBody, Outcome.bind_eq_value_iff] at h
          obtain ⟨c₁, h₁, h₂⟩ := h
          have hrest := ihl (by omega) h₂
          have hlocals : (c₁.emitOp .pop).locals = c.locals :=
            (compileExpr_extends h₁).locals_eq
          rw [hlocals] at hrest
          exact ((ih body (by omega) _ _ _ h₁).append
            (lays_op rfl c₁)).append hrest

theorem compileLoopBody_lays (hl : sizeOf l < n)
    (h : compileLoopBody ctx l c = .value c') :
    Lays c c' (loopBodyCode ctx l c.locals) := by
  induction l generalizing c with
  | nil =>
      simp only [compileLoopBody, Outcome.value.injEq] at h
      exact h ▸ Lays.skip c
  | cons body rest ihl =>
      simp only [compileLoopBody, Outcome.bind_eq_value_iff] at h
      obtain ⟨c₁, h₁, h₂⟩ := h
      simp only [List.cons.sizeOf_spec] at hl
      have hrest := ihl (by omega) h₂
      have hlocals : (c₁.emitOp .pop).locals = c.locals :=
        (compileExpr_extends h₁).locals_eq
      rw [hlocals] at hrest
      exact ((ih body (by omega) _ _ _ h₁).append (lays_op rfl c₁)).append
        hrest

theorem compileFirst_lays (hl : sizeOf l < n)
    (h : compileFirst ctx l isTail c = .value c') :
    Lays c c' (firstCode ctx l isTail c.locals) := by
  cases l with
  | nil =>
      simp only [compileFirst, Outcome.value.injEq] at h
      exact h ▸ lays_op rfl c
  | cons e l =>
      simp only [compileFirst] at h
      simp only [List.cons.sizeOf_spec] at hl
      exact ih e (by omega) _ _ _ h

omit ih in
/-- A test with two ways, each in a state that has the locals of the first. -/
theorem lays_branch {c₁ c₂ c₃ : Compiler} {test way other : Code}
    (h₁ : Lays c c₁ test) (h₂ : Lays (c₁.emitJump .jumpIfNil).2 c₂ way)
    (h₃ : Lays ((c₂.emitJump .jump).2.patchJump
      (c₁.emitJump .jumpIfNil).1) c₃ other) :
    Lays c (c₃.patchJump (c₂.emitJump .jump).1) (branch test way other) :=
  ((h₁.hole h₂.laysTo).leave h₃.laysTo).close

theorem compileIf_lays (hl : sizeOf l < n)
    (h : compileIf ctx l isTail c = .value c') :
    Lays c c' (ifCode ctx l isTail c.locals) := by
  match l with
  | [] | [_] => simp [compileIf] at h
  | cond :: thenExpr :: elseExpr =>
      simp only [List.cons.sizeOf_spec] at hl
      simp only [compileIf, Outcome.bind_eq_value_iff,
        Outcome.value.injEq] at h
      obtain ⟨c₁, h₁, c₂, h₂, c₃, h₃, rfl⟩ := h
      have hloc₁ : (c₁.emitJump .jumpIfNil).2.locals = c.locals :=
        ((compileExpr_extends h₁).emitJump _).locals_eq
      have hloc₂ : ((c₂.emitJump .jump).2.patchJump
          (c₁.emitJump .jumpIfNil).1).locals = c.locals :=
        (((compileExpr_extends h₂).emitJump .jump).locals_eq).trans hloc₁
      have hthen := ih thenExpr (by omega) _ _ _ h₂
      have helse := compileFirst_lays ih (by omega) h₃
      rw [hloc₁] at hthen
      rw [hloc₂] at helse
      exact lays_branch (ih cond (by omega) _ _ _ h₁) hthen helse

theorem compileWhen_lays (hl : sizeOf l < n)
    (h : compileWhen ctx l isTail c = .value c') :
    Lays c c' (whenCode ctx l isTail c.locals) := by
  match l with
  | [] => simp [compileWhen] at h
  | [cond] =>
      simp only [List.cons.sizeOf_spec] at hl
      simp only [compileWhen] at h
      exact ih cond (by omega) _ _ _ h
  | cond :: e :: body =>
      have hl' : sizeOf cond < n ∧ sizeOf (e :: body) < n := by
        simp only [List.cons.sizeOf_spec] at hl ⊢
        omega
      simp only [compileWhen, Outcome.bind_eq_value_iff,
        Outcome.value.injEq] at h
      obtain ⟨c₁, h₁, c₂, h₂, rfl⟩ := h
      have hloc₁ : (c₁.emitJump .jumpIfNil).2.locals = c.locals :=
        ((compileExpr_extends h₁).emitJump _).locals_eq
      have hbody := compileBody_lays ih hl'.2 h₂
      rw [hloc₁] at hbody
      exact lays_branch (ih cond hl'.1 _ _ _ h₁) hbody (lays_op rfl _)

/-- The clauses of a `cond`, whose jumps to the end are still open. -/
theorem compileClauses_lays (hl : sizeOf l < n) {jumps jumps' : List Nat}
    (h : compileClauses ctx l isTail c jumps = .value (c', jumps')) :
    ∃ holes shaped, jumps' = jumps ++ holes ∧
      LaysTo c c' holes shaped (clausesCode ctx l isTail c.locals) := by
  induction l generalizing c jumps with
  | nil =>
      simp only [compileClauses, Outcome.value.injEq, Prod.mk.injEq] at h
      obtain ⟨rfl, rfl⟩ := h
      exact ⟨[], _, by simp, (Lays.skip c).laysTo⟩
  | cons clause clauses ihl =>
      simp only [List.cons.sizeOf_spec] at hl
      cases clause with
      | expression cells =>
          obtain _ | ⟨test, body⟩ := cells
          · simp only [compileClauses] at h
            exact ihl (by omega) h
          · simp only [compileClauses, Outcome.bind_eq_value_iff] at h
            obtain ⟨c₁, htest, c₂, hbody, h⟩ := h
            simp only [Cell.expression.sizeOf_spec,
              List.cons.sizeOf_spec] at hl
            split at h
            · obtain ⟨holes, shaped, rfl, hrest⟩ := ihl (by omega) h
              have hpop := (lays_op (o := .pop) rfl c).append
                (ih test (by omega) _ _ _ htest)
              have hdup := hpop.append (lays_op (o := .dup) rfl c₁)
              have hext₁ := (((Extends.refl c).emitOp .pop).trans
                (compileExpr_extends htest)).emitOp .dup
              have hext₂ := (hext₁.emitJump .jumpIfNil).trans
                (clauseBody_ext hbody)
              have hloc₁ := (hext₁.emitJump .jumpIfNil).locals_eq
              have hloc₃ : ((c₂.emitJump .jump).2.patchJumps
                  [((c₁.emitOp .dup).emitJump .jumpIfNil).1]).locals =
                  c.locals :=
                ((hext₂.emitJump .jump).patchJump
                  (hext₁.le_jumpPos .jumpIfNil)).locals_eq
              have hway : Lays ((c₁.emitOp .dup).emitJump .jumpIfNil).2 c₂
                  (if body.isEmpty then .skip
                    else op .pop ++ bodyCode ctx body isTail c.locals) := by
                split at hbody
                · rename_i hempty
                  rw [if_pos hempty, ← Outcome.value.inj hbody]
                  exact Lays.skip _
                · rename_i hempty
                  rw [if_neg hempty, ← hloc₁]
                  exact (lays_op rfl _).append
                    (compileBody_lays ih (by omega) hbody)
              have hrest' : LaysTo ((c₂.emitJump .jump).2.patchJumps
                  [((c₁.emitOp .dup).emitJump .jumpIfNil).1]) c' holes shaped
                  (clausesCode ctx clauses isTail c.locals) := by
                rw [← hloc₃]
                exact hrest
              exact ⟨_, _, by simp, (hdup.hole hway.laysTo).leave hrest'⟩
            · cases h
      | _ => simp [compileClauses] at h

/-- The operands of an `and`, whose jumps to the failure are still open. -/
theorem compileAnd_lays (hl : sizeOf l < n) (hne : l ≠ [])
    {jumps jumps' : List Nat}
    (h : compileAnd ctx l isTail c jumps = .value (c', jumps')) :
    ∃ holes shaped, jumps' = jumps ++ holes ∧ (holes = [] ↔ l.tail = []) ∧
      LaysTo c c' holes shaped (andOperands ctx l isTail c.locals) := by
  induction l generalizing c jumps with
  | nil => exact absurd rfl hne
  | cons arg args ihl =>
      cases args with
      | nil =>
          simp only [List.cons.sizeOf_spec] at hl
          simp only [compileAnd, Outcome.bind_eq_value_iff,
            Outcome.value.injEq, Prod.mk.injEq] at h
          obtain ⟨c₁, h₁, rfl, rfl⟩ := h
          exact ⟨[], _, by simp, by simp,
            (ih arg (by omega) _ _ _ h₁).laysTo⟩
      | cons e args =>
          have hl' : sizeOf arg < n ∧ sizeOf (e :: args) < n := by
            simp only [List.cons.sizeOf_spec] at hl ⊢
            omega
          simp only [compileAnd, Outcome.bind_eq_value_iff] at h
          obtain ⟨c₁, h₁, h₂⟩ := h
          split at h₂
          · obtain ⟨holes, shaped, rfl, -, hrest⟩ := ihl hl'.2 (by simp) h₂
            have hloc : (c₁.emitJump .jumpIfNil).2.locals = c.locals :=
              ((compileExpr_extends h₁).emitJump _).locals_eq
            rw [hloc] at hrest
            exact ⟨_, _, by simp, by simp, (ih arg hl'.1 _ _ _ h₁).hole hrest⟩
          · cases h₂

/-- The operands of an `or`, whose jumps to the end are still open. -/
theorem compileOr_lays (hl : sizeOf l < n) (hne : l ≠ [])
    {jumps jumps' : List Nat}
    (h : compileOr ctx l isTail c jumps = .value (c', jumps')) :
    ∃ holes shaped, jumps' = jumps ++ holes ∧
      LaysTo c c' holes shaped (orOperands ctx l isTail c.locals) := by
  induction l generalizing c jumps with
  | nil => exact absurd rfl hne
  | cons arg args ihl =>
      cases args with
      | nil =>
          simp only [List.cons.sizeOf_spec] at hl
          simp only [compileOr, Outcome.bind_eq_value_iff,
            Outcome.value.injEq, Prod.mk.injEq] at h
          obtain ⟨c₁, h₁, rfl, rfl⟩ := h
          exact ⟨[], _, by simp, (ih arg (by omega) _ _ _ h₁).laysTo⟩
      | cons e args =>
          have hl' : sizeOf arg < n ∧ sizeOf (e :: args) < n := by
            simp only [List.cons.sizeOf_spec] at hl ⊢
            omega
          simp only [compileOr, Outcome.bind_eq_value_iff] at h
          obtain ⟨c₁, h₁, h₂⟩ := h
          split at h₂
          · obtain ⟨holes, shaped, rfl, hrest⟩ := ihl hl'.2 (by simp) h₂
            have hext := ((compileExpr_extends h₁).emitOp .dup).emitJump
              .jumpIfNotNil
            have hloc : ((((c₁.emitOp .dup).emitJump
                .jumpIfNotNil).2).emitOp .pop).locals = c.locals :=
              (hext.emitOp .pop).locals_eq
            rw [hloc] at hrest
            have hdup := (ih arg hl'.1 _ _ _ h₁).append
              (lays_op (o := .dup) rfl c₁)
            exact ⟨_, _, by simp,
              hdup.hole ((lays_op rfl _).laysTo_append hrest)⟩
          · cases h₂

theorem compileWhile_lays (hl : sizeOf l < n)
    (h : compileWhile ctx l c = .value c') :
    Lays c c' (whileCode ctx l c.locals) := by
  cases l with
  | nil => simp [compileWhile] at h
  | cons cond body =>
      simp only [List.cons.sizeOf_spec] at hl
      simp only [compileWhile, Outcome.bind_eq_value_iff,
        Outcome.value.injEq] at h
      obtain ⟨c₁, h₁, c₂, h₂, rfl⟩ := h
      have hloc : (c₁.emitJump .jumpIfNil).2.locals = c.locals :=
        ((compileExpr_extends h₁).emitJump _).locals_eq
      have hbody := compileLoopBody_lays ih (by omega) h₂
      rw [hloc] at hbody
      exact (lays_loop (ih cond (by omega) _ _ _ h₁) hbody).append
        (lays_op rfl _)

theorem compileBindings_lays (hl : sizeOf l < n)
    (h : compileBindings ctx l c = .value c') :
    Lays c c' (bindingsCode ctx l c.locals) ∧
      c'.locals = c.locals ++ bindingLocals l := by
  induction hk : l.length using Nat.strong_induction_on generalizing l c with
  | _ k ihl =>
    match l with
    | [] =>
        simp only [compileBindings, Outcome.value.injEq] at h
        subst h
        rw [bindingsCode, bindingLocals]
        · exact ⟨Lays.skip c, by simp⟩
        all_goals simp
    | .expression (.symbol s :: init) :: bindings =>
        simp only [compileBindings, Outcome.bind_eq_value_iff,
          Prod.exists] at h
        obtain ⟨slot, c₁, h₁, c₂, h₂, h₃⟩ := h
        obtain ⟨hloc₁, rfl⟩ := addLocal_locals h₁
        simp only [List.cons.sizeOf_spec, Cell.expression.sizeOf_spec] at hl
        simp only [List.length_cons] at hk
        have hinit := compileFirst_lays ih (by omega) h₂
        have hloc₂ : (c₂.emitStoreLocal c.locals.length).locals =
            c.locals ++ [some s] := by
          rw [((compileFirst_extends (smallExtends ctx n) (by omega)
            spelled_true h₂).emitStoreLocal _).locals_eq, hloc₁]
        have hslot := length_lt_of_store hloc₂
        obtain ⟨hrest, hlast⟩ := ihl _ (by omega) (l := bindings) (by omega)
          h₃ rfl
        rw [hloc₁] at hinit
        rw [hloc₂] at hrest hlast
        refine ⟨?_, by rw [hlast, bindingLocals, List.append_assoc]; rfl⟩
        rw [bindingsCode]
        exact (addLocal_lays h₁ (hinit.append (lays_store c₂ hslot))).append
          hrest
    | [.symbol s] =>
        simp only [compileBindings, Outcome.bind_eq_value_iff, Prod.exists,
          Outcome.value.injEq] at h
        obtain ⟨slot, c₁, h₁, rfl⟩ := h
        obtain ⟨hloc₁, rfl⟩ := addLocal_locals h₁
        have hslot : c.locals.length < c₁.locals.length := by simp [hloc₁]
        refine ⟨addLocal_lays h₁ ((lays_op rfl c₁).append
          (lays_store (c₁.emitOp .nil) hslot)), ?_⟩
        rw [(((Extends.refl c₁).emitOp .nil).emitStoreLocal _).locals_eq,
          hloc₁]
        rfl
    | .symbol s :: init :: bindings =>
        simp only [compileBindings, Outcome.bind_eq_value_iff,
          Prod.exists] at h
        obtain ⟨slot, c₁, h₁, c₂, h₂, h₃⟩ := h
        obtain ⟨hloc₁, rfl⟩ := addLocal_locals h₁
        simp only [List.cons.sizeOf_spec] at hl
        simp only [List.length_cons] at hk
        have hinit := ih init (by omega) _ _ _ h₂
        have hloc₂ : (c₂.emitStoreLocal c.locals.length).locals =
            c.locals ++ [some s] := by
          rw [((compileExpr_extends h₂).emitStoreLocal _).locals_eq, hloc₁]
        have hslot := length_lt_of_store hloc₂
        obtain ⟨hrest, hlast⟩ := ihl _ (by omega) (l := bindings) (by omega)
          h₃ rfl
        rw [hloc₁] at hinit
        rw [hloc₂] at hrest hlast
        refine ⟨?_, by rw [hlast, bindingLocals, List.append_assoc]; rfl⟩
        rw [bindingsCode]
        exact (addLocal_lays h₁ (hinit.append (lays_store c₂ hslot))).append
          hrest
    | .expression [] :: _ | .expression (.nil :: _) :: _
    | .expression (.true_ :: _) :: _ | .expression (.long _ :: _) :: _
    | .expression (.bigint _ :: _) :: _ | .expression (.float _ :: _) :: _
    | .expression (.string _ :: _) :: _ | .expression (.context _ :: _) :: _
    | .expression (.primitive _ :: _) :: _ | .expression (.quote _ :: _) :: _
    | .expression (.expression _ :: _) :: _
    | .expression (.lambda _ _ :: _) :: _ | .expression (.fexpr _ :: _) :: _
    | .expression (.array _ :: _) :: _ | .expression (.dynSymbol _ _ :: _) :: _
    | .nil :: _ | .true_ :: _ | .long _ :: _ | .bigint _ :: _ | .float _ :: _
    | .string _ :: _ | .context _ :: _ | .primitive _ :: _ | .quote _ :: _
    | .lambda _ _ :: _ | .fexpr _ :: _ | .array _ :: _ | .dynSymbol _ _ :: _ =>
        simp [compileBindings] at h

theorem compileLet_lays (hl : sizeOf l < n)
    (h : compileLet ctx l isTail c = .value c') :
    Lays c c' (letCode ctx l isTail c.locals) := by
  unfold compileLet at h
  split at h
  · rename_i bindings body _ _
    simp only [Outcome.bind_eq_value_iff, Outcome.value.injEq] at h
    obtain ⟨c₁, h₁, c₂, h₂, rfl⟩ := h
    simp only [List.cons.sizeOf_spec, Cell.expression.sizeOf_spec] at hl
    obtain ⟨hbindings, hloc⟩ := compileBindings_lays ih (by omega) h₁
    have hbody := compileBody_lays ih (by omega) h₂
    rw [hloc] at hbody
    exact restoreLocals_lays _ (hbindings.append hbody)
  · cases h

theorem compileLocal_lays (hl : sizeOf l < n)
    (h : compileLocal ctx l isTail c = .value c') :
    Lays c c' (localCode ctx l isTail c.locals) := by
  unfold compileLocal at h
  split at h
  · rename_i vars body _ _
    simp only [Outcome.bind_eq_value_iff, Outcome.value.injEq] at h
    obtain ⟨c₁, h₁, c₂, h₂, rfl⟩ := h
    simp only [List.cons.sizeOf_spec, Cell.expression.sizeOf_spec] at hl
    obtain ⟨hvars, hloc⟩ := compileVars_lays h₁
    have hbody := compileBody_lays ih (by omega) h₂
    rw [hloc] at hbody
    exact restoreLocals_lays _ (hvars.append hbody)
  · cases h

theorem compileDotimes_lays (hl : sizeOf l < n)
    (h : compileDotimes ctx l c = .value c') :
    Lays c c' (dotimesCode ctx l c.locals) := by
  unfold compileDotimes at h
  split at h
  · rename_i varSym countExpr header body
    simp only [Outcome.bind_eq_value_iff, Prod.exists,
      Outcome.value.injEq] at h
    obtain ⟨countSlot, c₁, h₁, c₂, h₂, varSlot, c₃, h₃, c₄, h₄, rfl⟩ := h
    simp only [List.cons.sizeOf_spec, Cell.expression.sizeOf_spec] at hl
    obtain ⟨hloc₁, rfl⟩ := addLocal_locals h₁
    obtain ⟨hloc₃, rfl⟩ := addLocal_locals h₃
    have hloc₂ : (c₂.emitStoreLocal c.locals.length).locals =
        c.locals ++ [none] := by
      rw [((compileExpr_extends h₂).emitStoreLocal _).locals_eq, hloc₁]
    rw [hloc₂] at hloc₃
    have hcount := ih countExpr (by omega) _ _ _ h₂
    rw [hloc₁] at hcount
    have hvarSlot : (c₂.emitStoreLocal c.locals.length).locals.length =
        c.locals.length + 1 := by
      rw [hloc₂, List.length_append]
      rfl
    rw [hvarSlot] at h₄ ⊢
    have hslot₂ := length_lt_of_store hloc₂
    have hslot₃ : c.locals.length + 1 < c₃.locals.length := by simp [hloc₃]
    have hstart := ((addLocal_lays h₁ (hcount.append
      (lays_store c₂ hslot₂))).append (addLocal_lays h₃
        (lays_op (o := .const0) rfl c₃))).append
          (lays_store (c₃.emitOp .const0) hslot₃)
    have hext := (((((Extends.refl c₃).emitOp .const0).emitStoreLocal
      (c.locals.length + 1)).emitLoadLocal
        (c.locals.length + 1)).emitLoadLocal c.locals.length).emitOp .lt
    have hloc₄ := (hext.emitJump .jumpIfNil).locals_eq
    rw [hloc₃, List.append_assoc] at hloc₄
    have hslot : ∀ k, k < c₃.locals.length →
        k < ((c₃.emitOp .const0).emitStoreLocal
          (c.locals.length + 1)).locals.length := by
      intro k hk
      rw [emitStoreLocal_locals]
      exact hk
    have hslot' : c.locals.length < (((c₃.emitOp .const0).emitStoreLocal
        (c.locals.length + 1)).emitLoadLocal
          (c.locals.length + 1)).locals.length := by
      rw [emitLoadLocal_locals]
      exact hslot _ (by omega)
    have htest := ((lays_load _ (hslot _ hslot₃)).append
      (lays_load _ hslot')).append (lays_op (o := .lt) rfl _)
    have hbody : Lays (((((c₃.emitOp .const0).emitStoreLocal
        (c.locals.length + 1)).emitLoadLocal
          (c.locals.length + 1)).emitLoadLocal c.locals.length).emitOp
            .lt |>.emitJump .jumpIfNil).2 c₄
        ((if body.isEmpty then op .nil ++ op .pop else .skip) ++
          loopBodyCode ctx body (c.locals ++ [none, some varSym])) := by
      have hrest := compileLoopBody_lays ih (by omega) h₄
      split at h₄
      · rename_i hempty
        rw [if_pos hempty] at hrest ⊢
        exact ((lays_op rfl _).append (lays_op rfl _)).append (hloc₄ ▸ hrest)
      · rename_i hempty
        rw [if_neg hempty] at hrest ⊢
        exact (Lays.skip _).append (hloc₄ ▸ hrest)
    have hext₄ : Extends c₃ c₄ := by
      have hjump := hext.emitJump .jumpIfNil
      split at h₄
      · exact ((hjump.emitOp .nil).emitOp .pop).trans
          (compileLoopBody_extends (smallExtends ctx n) (by omega) spelled_true h₄)
      · exact hjump.trans
          (compileLoopBody_extends (smallExtends ctx n) (by omega) spelled_true h₄)
    have hloc₅ : c.locals.length + 1 < c₄.locals.length := by
      rw [hext₄.locals_eq]
      exact hslot₃
    have hstep := ((hbody.append (lays_load c₄ hloc₅)).append
      (lays_op (o := .add1) rfl _)).append
        (lays_store ((c₄.emitLoadLocal (c.locals.length + 1)).emitOp .add1) (by
          have hsame := emitLoadLocal_locals c₄ (c.locals.length + 1)
          exact hsame ▸ hloc₅))
    exact restoreLocals_lays _
      (hstart.append ((lays_loop htest hstep).append (lays_op rfl _)))
  · cases h

theorem compileSet_lays {isSetq : Bool} (hl : sizeOf l < n)
    (h : compileSet ctx isSetq l c = .value c') :
    Lays c c' (setCode ctx isSetq l c.locals) := by
  induction hk : l.length using Nat.strong_induction_on generalizing l c with
  | _ k ihl =>
    match l with
    | [] | [_] => simp [compileSet] at h
    | [place, val] =>
        simp only [compileSet] at h
        split at h
        · cases h
        · rename_i s hplace
          simp only [Outcome.bind_eq_value_iff, Outcome.value.injEq] at h
          obtain ⟨c₁, h₁, rfl⟩ := h
          simp only [List.cons.sizeOf_spec] at hl
          have hslot : ∀ k, slotOf c.locals s = some k →
              k < c₁.locals.length := by
            intro k hk
            rw [(compileExpr_extends h₁).locals_eq]
            exact slotOf_lt hk
          rw [setCode, hplace]
          exact (ih val (by omega) _ _ _ h₁).append
            (lays_assign c₁ s hslot)
    | place :: val :: e :: pair =>
        simp only [compileSet] at h
        split at h
        · cases h
        · rename_i s hplace
          simp only [Outcome.bind_eq_value_iff] at h
          obtain ⟨c₁, h₁, h₂⟩ := h
          have hl' : sizeOf val < n ∧ sizeOf (e :: pair) < n := by
            simp only [List.cons.sizeOf_spec] at hl ⊢
            omega
          simp only [List.length_cons] at hk
          have hloc : ((c₁.emitAssign (c.findLocal s) s).emitOp .pop).locals =
              c.locals :=
            (((compileExpr_extends h₁).emitAssign _ _ trivial).emitOp _).locals_eq
          have hrest := ihl _ (by simp only [List.length_cons]; omega) hl'.2
            h₂ rfl
          rw [hloc] at hrest
          have hslot : ∀ k, slotOf c.locals s = some k →
              k < c₁.locals.length := by
            intro k hk
            rw [(compileExpr_extends h₁).locals_eq]
            exact slotOf_lt hk
          rw [setCode, hplace]
          · exact (((ih val hl'.1 _ _ _ h₁).append
              (lays_assign c₁ s hslot)).append
                (lays_op rfl _)).append hrest
          · simp

theorem compileInc_lays {op1 o : VmOpcode} (hop1 : Instr.isPlain op1 = true)
    (ho : Instr.isPlain o = true) (hl : sizeOf l < n)
    (h : compileInc ctx op1 o l c = .value c') :
    Lays c c' (incCode ctx op1 o l c.locals) := by
  match l with
  | [] => simp [compileInc] at h
  | [arg1] =>
      simp only [compileInc] at h
      split at h
      · cases h
      · rename_i s hplace
        rw [incCode, hplace]
        have hslot : c.findLocal s = slotOf c.locals s := rfl
        rw [hslot] at h
        simp only [Option.bind_some]
        cases hfound : slotOf c.locals s with
        | some slot =>
          simp only [hfound] at h
          rw [← Outcome.value.inj h]
          have hslot := slotOf_lt hfound
          refine ((lays_load c hslot).append (lays_op hop1 _)).append
            (lays_assign ((c.emitLoadLocal slot).emitOp op1) s ?_)
          rintro k ⟨⟩
          exact (emitLoadLocal_locals c slot) ▸ hslot
        | none =>
          simp only [hfound] at h
          rw [← Outcome.value.inj h]
          exact ((lays_loadGlobal c s).append (lays_op hop1 _)).append
            (lays_assign _ s (by simp))
  | arg1 :: delta :: _ =>
      simp only [List.cons.sizeOf_spec] at hl
      simp only [compileInc] at h
      split at h
      · cases h
      · rename_i s hplace
        rw [incCode, hplace]
        have hslot : c.findLocal s = slotOf c.locals s := rfl
        rw [hslot] at h
        simp only [Option.bind_some]
        cases hfound : slotOf c.locals s with
        | some slot =>
          simp only [hfound] at h
          simp only [Outcome.bind_eq_value_iff, Outcome.value.injEq] at h
          obtain ⟨c₁, h₁, rfl⟩ := h
          have hdelta := ih delta (by omega) _ _ _ h₁
          rw [emitLoadLocal_locals] at hdelta
          have hslot := slotOf_lt hfound
          refine (((lays_load c hslot).append hdelta).append
            (lays_op ho _)).append (lays_assign (c₁.emitOp o) s ?_)
          rintro k ⟨⟩
          have hsame : (c₁.emitOp o).locals = c.locals :=
            (compileExpr_extends h₁).locals_eq.trans
              (emitLoadLocal_locals c slot)
          exact hsame ▸ hslot
        | none =>
          simp only [hfound] at h
          simp only [Outcome.bind_eq_value_iff, Outcome.value.injEq] at h
          obtain ⟨c₁, h₁, rfl⟩ := h
          have hdelta := ih delta (by omega) _ _ _ h₁
          rw [((Extends.refl c).emitLoadGlobal s trivial).locals_eq] at hdelta
          exact (((lays_loadGlobal c s).append hdelta).append
            (lays_op ho _)).append (lays_assign _ s (by simp))

/-- Two operands and an instruction. -/
theorem compilePair_lays {o : VmOpcode} (ho : Instr.isPlain o = true)
    {arg1 arg2 : Cell} {c₁ c₂ : Compiler} (h1 : sizeOf arg1 < n)
    (h2 : sizeOf arg2 < n) (h₁ : compileExpr ctx arg1 false c = .value c₁)
    (h₂ : compileExpr ctx arg2 false c₁ = .value c₂) :
    Lays c (c₂.emitOp o) (exprCode ctx arg1 false c.locals ++
      exprCode ctx arg2 false c.locals ++ op o) := by
  have hsnd := ih arg2 h2 _ _ _ h₂
  rw [(compileExpr_extends h₁).locals_eq] at hsnd
  exact ((ih arg1 h1 _ _ _ h₁).append hsnd).append (lays_op ho _)

theorem compileCompare_lays {o : VmOpcode} (ho : Instr.isPlain o = true)
    (hl : sizeOf l < n) (h : compileCompare ctx o l c = .value c') :
    Lays c c' (compareCode ctx o l c.locals) := by
  unfold compileCompare at h
  split at h
  · simp only [Outcome.bind_eq_value_iff, Outcome.value.injEq] at h
    obtain ⟨c₁, h₁, c₂, h₂, rfl⟩ := h
    simp only [List.cons.sizeOf_spec] at hl
    exact compilePair_lays ih ho (by omega) (by omega) h₁ h₂
  · cases h

theorem compileOperands_lays {o : VmOpcode} (ho : Instr.isPlain o = true)
    (hl : sizeOf l < n) (h : compileOperands ctx o l c = .value c') :
    Lays c c' (operandsCode ctx o l c.locals) := by
  induction l generalizing c with
  | nil =>
      simp only [compileOperands, Outcome.value.injEq] at h
      exact h ▸ Lays.skip c
  | cons arg args ihl =>
      simp only [compileOperands, Outcome.bind_eq_value_iff] at h
      obtain ⟨c₁, h₁, h₂⟩ := h
      simp only [List.cons.sizeOf_spec] at hl
      have hrest := ihl (by omega) h₂
      have hloc : (c₁.emitOp o).locals = c.locals :=
        (compileExpr_extends h₁).locals_eq
      rw [hloc] at hrest
      exact ((ih arg (by omega) _ _ _ h₁).append (lays_op ho c₁)).append hrest

/-- An operand and those after it. -/
theorem compileFold_lays {o : VmOpcode} (ho : Instr.isPlain o = true) {arg : Cell}
    {c₁ : Compiler} (harg : sizeOf arg < n) (hl : sizeOf l < n)
    (h₁ : compileExpr ctx arg false c = .value c₁)
    (h₂ : compileOperands ctx o l c₁ = .value c') :
    Lays c c' (exprCode ctx arg false c.locals ++
      operandsCode ctx o l c.locals) := by
  have hrest := compileOperands_lays ih ho hl h₂
  rw [(compileExpr_extends h₁).locals_eq] at hrest
  exact (ih arg harg _ _ _ h₁).append hrest

/-- An operand and an instruction. -/
theorem compileUnary_lays {o : VmOpcode} (ho : Instr.isPlain o = true) {arg : Cell}
    (harg : sizeOf arg < n)
    (h : (do
      let c ← compileExpr ctx arg false c
      .value (c.emitOp o) : Compilation Compiler) = .value c') :
    Lays c c' (exprCode ctx arg false c.locals ++ op o) := by
  simp only [Outcome.bind_eq_value_iff, Outcome.value.injEq] at h
  obtain ⟨c₁, h₁, rfl⟩ := h
  exact (ih arg harg _ _ _ h₁).append (lays_op ho c₁)

theorem compileAdd_lays (hl : sizeOf l < n)
    (h : compileAdd ctx l c = .value c') :
    Lays c c' (addCode ctx l c.locals) := by
  match l with
  | [] =>
      simp only [compileAdd, Outcome.value.injEq] at h
      exact h ▸ lays_op rfl c
  | [arg] =>
      simp only [compileAdd, Outcome.bind_eq_value_iff] at h
      obtain ⟨c₁, h₁, h₂⟩ := h
      simp only [List.cons.sizeOf_spec] at hl
      exact compileFold_lays ih rfl (by omega) (by simp; omega) h₁ h₂
  | [arg, arg2] =>
      simp only [compileAdd] at h
      simp only [List.cons.sizeOf_spec] at hl
      rw [addCode]
      split at h
      · rename_i hone
        rw [if_pos hone]
        exact compileUnary_lays ih rfl (by omega) h
      split at h
      · rename_i hone hone'
        rw [if_neg hone, if_pos hone']
        exact compileUnary_lays ih rfl (by omega) h
      · rename_i hone hone'
        rw [if_neg hone, if_neg hone']
        simp only [Outcome.bind_eq_value_iff, Outcome.value.injEq] at h
        obtain ⟨c₁, h₁, c₂, h₂, rfl⟩ := h
        exact compilePair_lays ih rfl (by omega) (by omega) h₁ h₂
  | arg :: arg2 :: arg3 :: args =>
      simp only [compileAdd, Outcome.bind_eq_value_iff] at h
      obtain ⟨c₁, h₁, h₂⟩ := h
      have hl' : sizeOf arg < n ∧ sizeOf (arg2 :: arg3 :: args) < n := by
        simp only [List.cons.sizeOf_spec] at hl ⊢
        omega
      exact compileFold_lays ih rfl hl'.1 hl'.2 h₁ h₂

theorem compileSubtract_lays (hl : sizeOf l < n)
    (h : compileSubtract ctx l c = .value c') :
    Lays c c' (subtractCode ctx l c.locals) := by
  match l with
  | [] => simp [compileSubtract] at h
  | [arg] =>
      simp only [compileSubtract] at h
      simp only [List.cons.sizeOf_spec] at hl
      exact compileUnary_lays ih rfl (by omega) h
  | [arg, arg2] =>
      simp only [compileSubtract] at h
      simp only [List.cons.sizeOf_spec] at hl
      rw [subtractCode]
      split at h
      · rename_i hone
        rw [if_pos hone]
        exact compileUnary_lays ih rfl (by omega) h
      split at h
      · rename_i hone htwo
        rw [if_neg hone, if_pos htwo]
        exact compileUnary_lays ih rfl (by omega) h
      · rename_i hone htwo
        rw [if_neg hone, if_neg htwo]
        simp only [Outcome.bind_eq_value_iff, Outcome.value.injEq] at h
        obtain ⟨c₁, h₁, c₂, h₂, rfl⟩ := h
        exact compilePair_lays ih rfl (by omega) (by omega) h₁ h₂
  | arg :: arg2 :: arg3 :: args =>
      simp only [compileSubtract, Outcome.bind_eq_value_iff] at h
      obtain ⟨c₁, h₁, h₂⟩ := h
      have hl' : sizeOf arg < n ∧ sizeOf (arg2 :: arg3 :: args) < n := by
        simp only [List.cons.sizeOf_spec] at hl ⊢
        omega
      exact compileFold_lays ih rfl hl'.1 hl'.2 h₁ h₂

theorem compileMultiply_lays (hl : sizeOf l < n)
    (h : compileMultiply ctx l c = .value c') :
    Lays c c' (multiplyCode ctx l c.locals) := by
  cases l with
  | nil =>
      simp only [compileMultiply, Outcome.value.injEq] at h
      exact h ▸ lays_op rfl c
  | cons arg args =>
      simp only [compileMultiply, Outcome.bind_eq_value_iff] at h
      obtain ⟨c₁, h₁, h₂⟩ := h
      simp only [List.cons.sizeOf_spec] at hl
      exact compileFold_lays ih rfl (by omega) (by omega) h₁ h₂

theorem compileDivide_lays (hl : sizeOf l < n)
    (h : compileDivide ctx l c = .value c') :
    Lays c c' (divideCode ctx l c.locals) := by
  match l with
  | [] | [_] => simp [compileDivide] at h
  | arg :: arg2 :: args =>
      simp only [compileDivide, Outcome.bind_eq_value_iff] at h
      obtain ⟨c₁, h₁, h₂⟩ := h
      have hl' : sizeOf arg < n ∧ sizeOf (arg2 :: args) < n := by
        simp only [List.cons.sizeOf_spec] at hl ⊢
        omega
      exact compileFold_lays ih rfl hl'.1 hl'.2 h₁ h₂

/-- An `and` with its way out, when there are operands that can fail. -/
theorem compileAndForm_lays (hl : sizeOf l < n)
    (h : (if l.isEmpty then .value (c.emitOp .true_)
      else do
        let (c, exitJumps) ← compileAnd ctx l isTail c []
        .value (c.exitAnd exitJumps) : Compilation Compiler) = .value c') :
    Lays c c' (andCode ctx l isTail c.locals) := by
  match l with
  | [] =>
      simp only [List.isEmpty_nil, if_true, Outcome.value.injEq] at h
      exact h ▸ lays_op rfl c
  | [arg] =>
      simp only [List.cons.sizeOf_spec] at hl
      simp only [List.isEmpty_cons, Bool.false_eq_true, if_false, compileAnd,
        Outcome.bind_eq_value_iff, Outcome.value.injEq, Prod.exists,
        Prod.mk.injEq] at h
      obtain ⟨c₁, holes, ⟨c₂, h₂, rfl, rfl⟩, rfl⟩ := h
      exact ih arg (by omega) _ _ _ h₂
  | arg :: e :: args =>
      simp only [List.isEmpty_cons, Bool.false_eq_true, if_false,
        Outcome.bind_eq_value_iff, Outcome.value.injEq, Prod.exists] at h
      obtain ⟨c₁, jumps, h₁, rfl⟩ := h
      obtain ⟨holes, shaped, hjumps, hne, hops⟩ :=
        compileAnd_lays ih hl (by simp) h₁
      rw [List.nil_append] at hjumps
      subst hjumps
      have hholes : ¬ jumps.isEmpty = true := by simpa using hne
      simp only [exitAnd, if_neg hholes]
      exact (hops.leave (lays_op (o := .nil) rfl _).laysTo).close

/-- A list whose head is a symbol, given its smaller parts. -/
theorem compileForm_lays {hsym : Symbol} (hl : sizeOf l < n)
    (h : compileExpr ctx (.expression (.symbol hsym :: l)) isTail c =
      .value c') :
    Lays c c' (exprCode ctx (.expression (.symbol hsym :: l)) isTail
      c.locals) := by
  rw [compileExpr] at h
  rw [exprCode]
  by_cases h1 : hsym.name = "if"
  · rw [if_pos h1] at h ⊢
    exact compileIf_lays ih hl h
  rw [if_neg h1] at h ⊢
  by_cases h2 : hsym.name = "when"
  · rw [if_pos h2] at h ⊢
    exact compileWhen_lays ih hl h
  rw [if_neg h2] at h ⊢
  by_cases h3 : hsym.name = "cond"
  · rw [if_pos h3] at h ⊢
    split at h
    · rename_i hempty
      rw [if_pos hempty]
      exact (Outcome.value.inj h) ▸ lays_op rfl c
    · rename_i hempty
      rw [if_neg hempty]
      simp only [Outcome.bind_eq_value_iff, Outcome.value.injEq] at h
      obtain ⟨⟨c₁, jumps⟩, h₁, rfl⟩ := h
      obtain ⟨holes, shaped, rfl, hclauses⟩ := compileClauses_lays ih hl h₁
      exact ((lays_op rfl c).laysTo_append hclauses).close
  rw [if_neg h3] at h ⊢
  by_cases h4 : hsym.name = "and"
  · rw [if_pos h4] at h ⊢
    exact compileAndForm_lays ih hl h
  rw [if_neg h4] at h ⊢
  by_cases h5 : hsym.name = "or"
  · rw [if_pos h5] at h ⊢
    split at h
    · rename_i hempty
      rw [if_pos hempty]
      exact (Outcome.value.inj h) ▸ lays_op rfl c
    · rename_i hempty
      rw [if_neg hempty]
      simp only [Outcome.bind_eq_value_iff, Outcome.value.injEq] at h
      obtain ⟨⟨c₁, jumps⟩, h₁, rfl⟩ := h
      obtain ⟨holes, shaped, rfl, hops⟩ := compileOr_lays ih hl
        (by simpa using hempty) h₁
      exact hops.close
  rw [if_neg h5] at h ⊢
  by_cases h6 : hsym.name = "begin"
  · rw [if_pos h6] at h ⊢
    exact compileBody_lays ih hl h
  rw [if_neg h6] at h ⊢
  by_cases h7 : hsym.name = "while"
  · rw [if_pos h7] at h ⊢
    exact compileWhile_lays ih hl h
  rw [if_neg h7] at h ⊢
  by_cases h8 : hsym.name = "let"
  · rw [if_pos h8] at h ⊢
    exact compileLet_lays ih hl h
  rw [if_neg h8] at h ⊢
  by_cases h9 : hsym.name = "local"
  · rw [if_pos h9] at h ⊢
    exact compileLocal_lays ih hl h
  rw [if_neg h9] at h ⊢
  by_cases h10 : hsym.name = "dotimes"
  · rw [if_pos h10] at h ⊢
    exact compileDotimes_lays ih hl h
  rw [if_neg h10] at h ⊢
  by_cases h11 : hsym.name = "setq"
  · rw [if_pos h11] at h ⊢
    exact compileSet_lays ih hl h
  rw [if_neg h11] at h ⊢
  by_cases h12 : hsym.name = "set"
  · rw [if_pos h12] at h ⊢
    exact compileSet_lays ih hl h
  rw [if_neg h12] at h ⊢
  by_cases h13 : hsym.name = "inc"
  · rw [if_pos h13] at h ⊢
    exact compileInc_lays ih rfl rfl hl h
  rw [if_neg h13] at h ⊢
  by_cases h14 : hsym.name = "dec"
  · rw [if_pos h14] at h ⊢
    exact compileInc_lays ih rfl rfl hl h
  rw [if_neg h14] at h ⊢
  cases hop : compareOpcode hsym.name with
  | some o =>
      simp only [hop] at h ⊢
      exact compileCompare_lays ih (compareOpcode_isPlain hop) hl h
  | none =>
  simp only [hop] at h ⊢
  by_cases h15 : hsym.name = "+"
  · rw [if_pos h15] at h ⊢
    exact compileAdd_lays ih hl h
  rw [if_neg h15] at h ⊢
  by_cases h16 : hsym.name = "-"
  · rw [if_pos h16] at h ⊢
    exact compileSubtract_lays ih hl h
  rw [if_neg h16] at h ⊢
  by_cases h17 : hsym.name = "*"
  · rw [if_pos h17] at h ⊢
    exact compileMultiply_lays ih hl h
  rw [if_neg h17] at h ⊢
  by_cases h18 : hsym.name = "/"
  · rw [if_pos h18] at h ⊢
    exact compileDivide_lays ih hl h
  rw [if_neg h18] at h ⊢
  by_cases h19 : ctx.selfSymbol = some hsym ∨ hsym.name = "self"
  · rw [if_pos h19] at h ⊢
    simp only [Outcome.bind_eq_value_iff, Outcome.value.injEq] at h
    obtain ⟨c₁, h₁, rfl⟩ := h
    exact (compileArgs_lays ih hl h₁).append
      (lays_call c₁ l.length (by split <;> rfl))
  rw [if_neg h19] at h ⊢
  by_cases h20 : isSpecialForm ctx hsym = true
  · rw [if_pos h20] at h
    cases h
  rw [if_neg h20] at h
  simp only [Outcome.bind_eq_value_iff, Outcome.value.injEq] at h
  obtain ⟨c₁, h₁, rfl⟩ := h
  have hargs := compileArgs_lays ih hl h₁
  rw [((Extends.refl c).compileSymbol ctx hsym trivial).locals_eq] at hargs
  exact ((compileSymbol_lays ctx hsym c).append hargs).append
    (lays_call c₁ l.length (by split <;> rfl))

/-- Any other list, given its smaller parts. -/
theorem compileCall_lays {head : Cell} (hhead : sizeOf head < n)
    (hl : sizeOf l < n) (hsym : ∀ s, head ≠ .symbol s)
    (h : compileExpr ctx (.expression (head :: l)) isTail c = .value c') :
    Lays c c' (exprCode ctx (.expression (head :: l)) isTail c.locals) := by
  rw [exprCode_call ctx hsym]
  rw [compileExpr] at h
  · simp only [Outcome.bind_eq_value_iff, Outcome.value.injEq] at h
    obtain ⟨c₁, h₁, c₂, h₂, rfl⟩ := h
    have hargs := compileArgs_lays ih hl h₂
    rw [(compileExpr_extends h₁).locals_eq] at hargs
    exact ((ih head hhead _ _ _ h₁).append hargs).append
      (lays_call c₂ l.length (by split <;> rfl))
  · exact hsym

end

/-- Every compiled expression is laid out, whatever its size. -/
theorem smallLays (ctx : CompileContext) (n : Nat) : SmallLays ctx n := by
  induction n with
  | zero => intro e he; omega
  | succ n ih =>
      intro e he isTail c c' h
      match e with
      | .nil | .true_ =>
          simp only [compileExpr, Outcome.value.injEq] at h
          exact h ▸ lays_op rfl c
      | .long val =>
          simp only [compileExpr] at h
          rw [exprCode]
          by_cases h₀ : val = 0
          · rw [if_pos h₀] at h ⊢
            exact (Outcome.value.inj h) ▸ lays_op rfl c
          rw [if_neg h₀] at h ⊢
          by_cases h₁ : val = 1
          · rw [if_pos h₁] at h ⊢
            exact (Outcome.value.inj h) ▸ lays_op rfl c
          rw [if_neg h₁] at h ⊢
          by_cases h₂ : val = 2
          · rw [if_pos h₂] at h ⊢
            exact (Outcome.value.inj h) ▸ lays_op rfl c
          rw [if_neg h₂] at h ⊢
          exact emitConstant_lays h
      | .float _ | .string _ | .quote _ =>
          simp only [compileExpr] at h
          exact emitConstant_lays h
      | .symbol s =>
          simp only [compileExpr, Outcome.value.injEq] at h
          exact h ▸ compileSymbol_lays ctx s c
      | .expression [] =>
          simp only [compileExpr, Outcome.value.injEq] at h
          exact h ▸ lays_op rfl c
      | .expression (head :: args) =>
          simp only [Cell.expression.sizeOf_spec, List.cons.sizeOf_spec] at he
          by_cases hs : ∃ s, head = .symbol s
          · obtain ⟨s, rfl⟩ := hs
            exact compileForm_lays ih (by omega) h
          · exact compileCall_lays ih (by omega) (by omega)
              (fun s hs' => hs ⟨s, hs'⟩) h
      | .bigint _ | .context _ | .primitive _ | .lambda _ _ | .fexpr _
      | .array _ | .dynSymbol _ _ => simp [compileExpr] at h

end NewLispNeo
