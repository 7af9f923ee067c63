/-
Every form emits an `OP_CONST` for each of its literals, form by form, and so does the
lambda.
-/
import NewLispNeo.ConstantCode

namespace NewLispNeo

open Compiler Interning

variable {ctx : CompileContext} {n : Nat} {l : List Cell} {isTail : Bool}
  {c c' c₀ : Compiler} {vals : List Cell} {jumps jumps' : List Nat}

theorem compileVars_emits (h : compileVars l c = .value c') :
    Emits ctx.runtime c [] [] c' := by
  induction l generalizing c with
  | nil => exact Outcome.value.inj h ▸ Emits.refl c
  | cons v vars ih =>
      cases v with
      | symbol s =>
          simp only [compileVars, Outcome.bind_eq_value_iff] at h
          obtain ⟨⟨slot, c₁⟩, hadd, h⟩ := h
          have hslot : Emits ctx.runtime c [] [] c₁ := (Emits.refl c).addLocal hadd
          exact ((hslot.emitOp _ (by decide)).emitStoreLocal slot).trans (ih h)
      | _ => simp [compileVars] at h

/-- What stands for the empty body of a `dotimes` has no literal. -/
theorem Emits.emptyBody {rt : Runtime} {holes : List Nat} (h : Emits rt c vals holes c')
    (isEmpty : Bool) :
    Emits rt c vals holes (if isEmpty then (c'.emitOp .nil).emitOp .pop else c') := by
  cases isEmpty with
  | false => exact h
  | true => exact (h.emitOp .nil (by decide)).emitOp .pop (by decide)

theorem literals_of_isLong {val : Word} {e : Cell} (h : isLong val e = true)
    (hval : val = 1 ∨ val = 2) : literals e = [] := by
  cases e with
  | long m =>
      simp only [isLong, decide_eq_true_eq] at h
      rw [literals, h, if_pos (by tauto)]
  | _ => simp [isLong] at h

/-- The names of the forms whose operands are not all compiled one after the other. -/
def structuredForms : List String :=
  ["if", "cond", "let", "local", "dotimes", "setq", "set", "inc", "dec"]

theorem literals_of_operator {s : Symbol} (h : s.name ∉ structuredForms) :
    literals (.expression (.symbol s :: l)) = bodyLiterals l := by
  simp only [structuredForms, List.mem_cons, List.not_mem_nil, or_false, not_or] at h
  rw [literals]
  simp only [h, or_self, if_false]

theorem operator_of_notMem {name : String} (h : name ∉ formNames) :
    name ∉ structuredForms := by
  have hsubset : structuredForms ⊆ formNames := by decide
  exact fun hmem => h (hsubset hmem)

theorem operator_of_compareOpcode {name : String} {op : VmOpcode}
    (h : compareOpcode name = some op) : name ∉ structuredForms := by
  have hdisjoint : ∀ name ∈ ["<", ">", "<=", ">=", "=", "!="], name ∉ structuredForms := by
    decide
  exact hdisjoint name (mem_formNames_of_compareOpcode h)

theorem compareOpcode_width {name : String} {op : VmOpcode}
    (h : compareOpcode name = some op) : op ≠ .const ∧ op.operandWidth = 0 := by
  unfold compareOpcode at h
  split_ifs at h <;> cases h <;> decide

/-- The subexpressions smaller than `n` emit their literals. -/
def SmallEmits (ctx : CompileContext) (n : Nat) : Prop :=
  ∀ e, sizeOf e < n → ∀ isTail c c', compileExpr ctx e isTail c = .value c' →
    Emits ctx.runtime c (literals e) [] c'

section

variable (ih : SmallEmits ctx n)

include ih

theorem compileArgs_emits (hl : sizeOf l < n) (h : compileArgs ctx l c = .value c') :
    Emits ctx.runtime c (bodyLiterals l) [] c' := by
  induction l generalizing c with
  | nil =>
      simp only [compileArgs, Outcome.value.injEq] at h
      exact h ▸ Emits.refl c
  | cons arg args ihl =>
      simp only [compileArgs, Outcome.bind_eq_value_iff] at h
      obtain ⟨c₁, h₁, h₂⟩ := h
      simp only [List.cons.sizeOf_spec] at hl
      exact (ih arg (by omega) _ _ _ h₁).trans (ihl (by omega) h₂)

theorem compileBody_emits (hl : sizeOf l < n) (h : compileBody ctx l isTail c = .value c') :
    Emits ctx.runtime c (bodyLiterals l) [] c' := by
  induction l generalizing c with
  | nil =>
      simp only [compileBody, Outcome.value.injEq] at h
      exact h ▸ (Emits.refl c).emitOp _ (by decide)
  | cons body rest ihl =>
      simp only [List.cons.sizeOf_spec] at hl
      cases rest with
      | nil =>
          simp only [compileBody] at h
          simpa [bodyLiterals] using ih body (by omega) _ _ _ h
      | cons e rest =>
          simp only [compileBody, Outcome.bind_eq_value_iff] at h
          obtain ⟨c₁, h₁, h₂⟩ := h
          exact ((ih body (by omega) _ _ _ h₁).emitOp _ (by decide)).trans (ihl (by omega) h₂)

theorem compileLoopBody_emits (hl : sizeOf l < n)
    (h : compileLoopBody ctx l c = .value c') :
    Emits ctx.runtime c (bodyLiterals l) [] c' := by
  induction l generalizing c with
  | nil =>
      simp only [compileLoopBody, Outcome.value.injEq] at h
      exact h ▸ Emits.refl c
  | cons body rest ihl =>
      simp only [compileLoopBody, Outcome.bind_eq_value_iff] at h
      obtain ⟨c₁, h₁, h₂⟩ := h
      simp only [List.cons.sizeOf_spec] at hl
      exact ((ih body (by omega) _ _ _ h₁).emitOp _ (by decide)).trans (ihl (by omega) h₂)

theorem compileIf_emits (hl : sizeOf l < n) (h : compileIf ctx l isTail c = .value c') :
    Emits ctx.runtime c (ifLiterals l) [] c' := by
  obtain _ | ⟨cond, _ | ⟨thenExpr, rest⟩⟩ := l
  · simp [compileIf] at h
  · simp [compileIf] at h
  · simp only [List.cons.sizeOf_spec] at hl
    simp only [compileIf, Outcome.bind_eq_value_iff, Outcome.value.injEq] at h
    obtain ⟨c₁, h₁, c₂, h₂, c₃, h₃, rfl⟩ := h
    have htest := (ih cond (by omega) _ _ _ h₁).emitJump .jumpIfNil (by decide)
    have hthen := (htest.trans (ih thenExpr (by omega) _ _ _ h₂)).emitJump .jump (by decide)
    have hway := hthen.patchJump (List.mem_cons_of_mem _ List.mem_cons_self)
    cases rest with
    | nil =>
        simp only [compileFirst, Outcome.value.injEq] at h₃
        subst h₃
        exact ((hway.emitOp .nil (by decide)).patchJump List.mem_cons_self).close
    | cons elseExpr rest =>
        simp only [compileFirst] at h₃
        simp only [List.cons.sizeOf_spec] at hl
        have helse := hway.trans (ih elseExpr (by omega) _ _ _ h₃)
        exact (helse.patchJump List.mem_cons_self).close

theorem compileWhen_emits (hl : sizeOf l < n) (h : compileWhen ctx l isTail c = .value c') :
    Emits ctx.runtime c (bodyLiterals l) [] c' := by
  obtain _ | ⟨cond, _ | ⟨e, body⟩⟩ := l
  · simp [compileWhen] at h
  · simp only [List.cons.sizeOf_spec] at hl
    simp only [compileWhen] at h
    simpa [bodyLiterals] using ih cond (by omega) _ _ _ h
  · have hl' : sizeOf cond < n ∧ sizeOf (e :: body) < n := by
      simp only [List.cons.sizeOf_spec] at hl ⊢
      omega
    simp only [compileWhen, Outcome.bind_eq_value_iff, Outcome.value.injEq] at h
    obtain ⟨c₁, h₁, c₂, h₂, rfl⟩ := h
    have htest := (ih cond hl'.1 _ _ _ h₁).emitJump .jumpIfNil (by decide)
    have hbody := (htest.trans (compileBody_emits ih hl'.2 h₂)).emitJump .jump (by decide)
    have hway := hbody.patchJump (List.mem_cons_of_mem _ List.mem_cons_self)
    exact ((hway.emitOp .nil (by decide)).patchJump List.mem_cons_self).close

/-- The jumps of the clauses so far are open. -/
theorem compileClauses_emits (hl : sizeOf l < n) (h₀ : Emits ctx.runtime c₀ vals jumps c)
    (h : compileClauses ctx l isTail c jumps = .value (c', jumps')) :
    Emits ctx.runtime c₀ (vals ++ clauseLiterals l) jumps' c' := by
  induction l generalizing c jumps vals with
  | nil =>
      simp only [compileClauses, Outcome.value.injEq, Prod.mk.injEq] at h
      obtain ⟨rfl, rfl⟩ := h
      simpa [clauseLiterals] using h₀
  | cons clause clauses ihl =>
      cases clause with
      | expression cells =>
          simp only [List.cons.sizeOf_spec, Cell.expression.sizeOf_spec] at hl
          obtain _ | ⟨test, body⟩ := cells
          · simp only [compileClauses] at h
            simpa [clauseLiterals, bodyLiterals] using ihl (by omega) h₀ h
          · simp only [List.cons.sizeOf_spec] at hl
            simp only [compileClauses, Outcome.bind_eq_value_iff] at h
            obtain ⟨c₁, h₁, c₂, h₂, h₃⟩ := h
            have htest := (h₀.emitOp .pop (by decide)).trans
              (ih test (by omega) _ _ _ h₁)
            have hfail := (htest.emitOp .dup (by decide)).emitJump .jumpIfNil (by decide)
            have hbody : Emits ctx.runtime c₀ (vals ++ literals test ++ bodyLiterals body)
                ((c₁.emitOp .dup |>.emitJump .jumpIfNil).1 :: jumps) c₂ := by
              split at h₂
              · rename_i hempty
                obtain rfl := Outcome.value.inj h₂
                simpa [List.isEmpty_iff.mp hempty, bodyLiterals] using hfail
              · exact (hfail.emitOp .pop (by decide)).trans
                  (compileBody_emits ih (by omega) h₂)
            split at h₃
            · have hleave := hbody.emitJump_last .jump (by decide)
              have hway := hleave.patchJump (List.mem_append_left _ List.mem_cons_self)
              have hopen := hway.mono _ fun _ => List.mem_cons_of_mem _
              have hrest := ihl (by omega) hopen h₃
              simpa [clauseLiterals, bodyLiterals, List.append_assoc] using hrest
            · cases h₃
      | _ => simp [compileClauses] at h

/-- The jumps of the operands so far are open. -/
theorem compileAnd_emits (hl : sizeOf l < n) (h₀ : Emits ctx.runtime c₀ vals jumps c)
    (h : compileAnd ctx l isTail c jumps = .value (c', jumps')) :
    Emits ctx.runtime c₀ (vals ++ bodyLiterals l) jumps' c' := by
  induction l generalizing c jumps vals with
  | nil =>
      simp only [compileAnd, Outcome.value.injEq, Prod.mk.injEq] at h
      obtain ⟨rfl, rfl⟩ := h
      simpa [bodyLiterals] using h₀
  | cons arg args ihl =>
      simp only [List.cons.sizeOf_spec] at hl
      cases args with
      | nil =>
          simp only [compileAnd, Outcome.bind_eq_value_iff, Outcome.value.injEq,
            Prod.mk.injEq] at h
          obtain ⟨c₁, h₁, rfl, rfl⟩ := h
          simpa [bodyLiterals] using h₀.trans (ih arg (by omega) _ _ _ h₁)
      | cons arg₂ args =>
          simp only [compileAnd, Outcome.bind_eq_value_iff] at h
          obtain ⟨c₁, h₁, h₂⟩ := h
          have harg := h₀.trans (ih arg (by omega) _ _ _ h₁)
          split at h₂
          · have hrest := ihl (by omega) (harg.emitJump_last .jumpIfNil (by decide)) h₂
            rw [List.append_assoc] at hrest
            exact hrest
          · cases h₂

/-- The jumps of the operands so far are open. -/
theorem compileOr_emits (hl : sizeOf l < n) (h₀ : Emits ctx.runtime c₀ vals jumps c)
    (h : compileOr ctx l isTail c jumps = .value (c', jumps')) :
    Emits ctx.runtime c₀ (vals ++ bodyLiterals l) jumps' c' := by
  induction l generalizing c jumps vals with
  | nil =>
      simp only [compileOr, Outcome.value.injEq, Prod.mk.injEq] at h
      obtain ⟨rfl, rfl⟩ := h
      simpa [bodyLiterals] using h₀
  | cons arg args ihl =>
      simp only [List.cons.sizeOf_spec] at hl
      cases args with
      | nil =>
          simp only [compileOr, Outcome.bind_eq_value_iff, Outcome.value.injEq,
            Prod.mk.injEq] at h
          obtain ⟨c₁, h₁, rfl, rfl⟩ := h
          simpa [bodyLiterals] using h₀.trans (ih arg (by omega) _ _ _ h₁)
      | cons arg₂ args =>
          simp only [compileOr, Outcome.bind_eq_value_iff] at h
          obtain ⟨c₁, h₁, h₂⟩ := h
          have harg := (h₀.trans (ih arg (by omega) _ _ _ h₁)).emitOp .dup (by decide)
          split at h₂
          · have hexit := harg.emitJump_last .jumpIfNotNil (by decide)
            have hrest := ihl (by omega) (hexit.emitOp .pop (by decide)) h₂
            rw [List.append_assoc] at hrest
            exact hrest
          · cases h₂

theorem compileWhile_emits (hl : sizeOf l < n) (h : compileWhile ctx l c = .value c') :
    Emits ctx.runtime c (bodyLiterals l) [] c' := by
  cases l with
  | nil => simp [compileWhile] at h
  | cons cond body =>
      simp only [List.cons.sizeOf_spec] at hl
      simp only [compileWhile, Outcome.bind_eq_value_iff, Outcome.value.injEq] at h
      obtain ⟨c₁, h₁, c₂, h₂, rfl⟩ := h
      have htest := (ih cond (by omega) _ _ _ h₁).emitJump .jumpIfNil (by decide)
      have hbody := htest.trans (compileLoopBody_emits ih (by omega) h₂)
      have hleave := (hbody.jumpBack c.code.length).patchJump List.mem_cons_self
      exact (hleave.emitOp .nil (by decide)).close

theorem compileFirst_emits {initVal : List Cell} (hl : sizeOf initVal < n)
    (h : compileFirst ctx initVal isTail c = .value c') :
    Emits ctx.runtime c ((initVal.take 1).flatMap literals) [] c' := by
  cases initVal with
  | nil =>
      simp only [compileFirst, Outcome.value.injEq] at h
      exact h ▸ (Emits.refl c).emitOp _ (by decide)
  | cons e rest =>
      simp only [compileFirst] at h
      simp only [List.cons.sizeOf_spec] at hl
      simpa using ih e (by omega) _ _ _ h

theorem compileBindings_emits (hl : sizeOf l < n)
    (h : compileBindings ctx l c = .value c') :
    Emits ctx.runtime c (bindingLiterals l) [] c' := by
  induction hk : l.length using Nat.strong_induction_on generalizing l c with
  | _ k ihl =>
    unfold compileBindings at h
    split at h
    · simp only [Outcome.value.injEq] at h
      exact h ▸ Emits.refl c
    · rename_i s initVal bindings
      simp only [Outcome.bind_eq_value_iff] at h
      obtain ⟨⟨slot, c₁⟩, h₁, c₂, h₂, h₃⟩ := h
      simp only [List.cons.sizeOf_spec, Cell.expression.sizeOf_spec] at hl
      have hslot : Emits ctx.runtime c [] [] c₁ := (Emits.refl c).addLocal h₁
      have hinit := (hslot.trans (compileFirst_emits ih (by omega) h₂)).emitStoreLocal slot
      have hrest := hinit.trans
        (ihl bindings.length (by simp at hk; omega) (by omega) h₃ rfl)
      cases initVal with
      | nil => simpa [bindingLiterals] using hrest
      | cons e rest => simpa [bindingLiterals] using hrest
    · simp only [Outcome.bind_eq_value_iff, Outcome.value.injEq] at h
      obtain ⟨⟨slot, c₁⟩, h₁, rfl⟩ := h
      have hslot : Emits ctx.runtime c [] [] c₁ := (Emits.refl c).addLocal h₁
      simpa [bindingLiterals] using (hslot.emitOp _ (by decide)).emitStoreLocal slot
    · rename_i s initVal bindings
      simp only [Outcome.bind_eq_value_iff] at h
      obtain ⟨⟨slot, c₁⟩, h₁, c₂, h₂, h₃⟩ := h
      simp only [List.cons.sizeOf_spec] at hl
      have hslot : Emits ctx.runtime c [] [] c₁ := (Emits.refl c).addLocal h₁
      have hinit := (hslot.trans (ih initVal (by omega) _ _ _ h₂)).emitStoreLocal slot
      exact hinit.trans (ihl bindings.length (by simp at hk; omega) (by omega) h₃ rfl)
    · cases h

theorem compileLet_emits (hl : sizeOf l < n) (h : compileLet ctx l isTail c = .value c') :
    Emits ctx.runtime c (letLiterals l) [] c' := by
  unfold compileLet at h
  split at h
  · simp only [Outcome.bind_eq_value_iff, Outcome.value.injEq] at h
    obtain ⟨c₁, h₁, c₂, h₂, rfl⟩ := h
    simp only [List.cons.sizeOf_spec, Cell.expression.sizeOf_spec] at hl
    have hbody := (compileBindings_emits ih (by omega) h₁).trans
      (compileBody_emits ih (by omega) h₂)
    exact hbody.congr rfl rfl
  · cases h

theorem compileLocal_emits (hl : sizeOf l < n)
    (h : compileLocal ctx l isTail c = .value c') :
    Emits ctx.runtime c (localLiterals l) [] c' := by
  unfold compileLocal at h
  split at h
  · simp only [Outcome.bind_eq_value_iff, Outcome.value.injEq] at h
    obtain ⟨c₁, h₁, c₂, h₂, rfl⟩ := h
    simp only [List.cons.sizeOf_spec] at hl
    have hbody := (compileVars_emits h₁).trans (compileBody_emits ih (by omega) h₂)
    exact hbody.congr rfl rfl
  · cases h

theorem compileDotimes_emits (hl : sizeOf l < n)
    (h : compileDotimes ctx l c = .value c') :
    Emits ctx.runtime c (dotimesLiterals l) [] c' := by
  unfold compileDotimes at h
  split at h
  · rename_i _ countExpr _ body
    simp only [Outcome.bind_eq_value_iff, Outcome.value.injEq] at h
    obtain ⟨⟨countSlot, c₁⟩, h₁, c₂, h₂, ⟨varSlot, c₃⟩, h₃, c₄, h₄, rfl⟩ := h
    simp only [List.cons.sizeOf_spec, Cell.expression.sizeOf_spec] at hl
    have hslot : Emits ctx.runtime c [] [] c₁ := (Emits.refl c).addLocal h₁
    have hcount := (hslot.trans (ih _ (by omega) _ _ _ h₂)).emitStoreLocal countSlot
    have hvar := ((hcount.addLocal h₃).emitOp .const0 (by decide)).emitStoreLocal
      varSlot
    have hless := ((hvar.emitLoadLocal varSlot).emitLoadLocal countSlot).emitOp .lt (by decide)
    have hexit := hless.emitJump .jumpIfNil (by decide)
    have hloop := (hexit.emptyBody body.isEmpty).trans
      (compileLoopBody_emits ih (by omega) h₄)
    have hstep := ((hloop.emitLoadLocal varSlot).emitOp .add1 (by decide)).emitStoreLocal
      varSlot
    have hleave := ((hstep.jumpBack
      ((c₃.emitOp .const0).emitStoreLocal varSlot).code.length).patchJump
        List.mem_cons_self).emitOp .nil (by decide)
    exact hleave.close.congr rfl rfl
  · cases h

theorem compileSet_emits {isSetq : Bool} (hl : sizeOf l < n)
    (h : compileSet ctx isSetq l c = .value c') :
    Emits ctx.runtime c (setLiterals l) [] c' := by
  induction hk : l.length using Nat.strong_induction_on generalizing l c with
  | _ k ihl =>
    unfold compileSet at h
    split at h
    · split at h
      · cases h
      · simp only [Outcome.bind_eq_value_iff, Outcome.value.injEq] at h
        obtain ⟨c₁, h₁, rfl⟩ := h
        simp only [List.cons.sizeOf_spec] at hl
        simpa [setLiterals] using (ih _ (by omega) _ _ _ h₁).emitAssign _ _
    · split at h
      · cases h
      · simp only [Outcome.bind_eq_value_iff] at h
        obtain ⟨c₁, h₁, h₂⟩ := h
        simp only [List.cons.sizeOf_spec] at hl
        simp only [List.length_cons] at hk
        have hval := ih _ (by omega) _ _ _ h₁
        exact ((hval.emitAssign _ _).emitOp .pop (by decide)).trans
          (ihl _ (by omega) (by omega) h₂ rfl)
    · cases h

theorem compileInc_emits {op1 op : VmOpcode} (hl : sizeOf l < n)
    (hop1 : op1 ≠ .const ∧ op1.operandWidth = 0) (hop : op ≠ .const ∧ op.operandWidth = 0)
    (h : compileInc ctx op1 op l c = .value c') :
    Emits ctx.runtime c (incLiterals l) [] c' := by
  have hstart : Emits ctx.runtime c [] [] c := Emits.refl c
  unfold compileInc at h
  split at h
  · cases h
  · split at h
    · cases h
    · split at h
      · exact Outcome.value.inj h ▸
          ((hstart.emitLoadLocal _).emitOp _ hop1).emitAssign _ _
      · exact Outcome.value.inj h ▸
          ((hstart.emitLoadGlobal _).emitOp _ hop1).emitAssign _ _
  · simp only [List.cons.sizeOf_spec] at hl
    split at h
    · cases h
    · split at h
      · simp only [Outcome.bind_eq_value_iff, Outcome.value.injEq] at h
        obtain ⟨c₁, h₁, rfl⟩ := h
        have hdelta := (hstart.emitLoadLocal _).trans (ih _ (by omega) _ _ _ h₁)
        exact (hdelta.emitOp _ hop).emitAssign _ _
      · simp only [Outcome.bind_eq_value_iff, Outcome.value.injEq] at h
        obtain ⟨c₁, h₁, rfl⟩ := h
        have hdelta := (hstart.emitLoadGlobal _).trans (ih _ (by omega) _ _ _ h₁)
        exact (hdelta.emitOp _ hop).emitAssign _ _

/-- Two operands and an operator without an operand of its own. -/
theorem binary_emits {arg₁ arg₂ : Cell} {op : VmOpcode} {c₁ c₂ : Compiler}
    (hl : sizeOf arg₁ < n ∧ sizeOf arg₂ < n) (hop : op ≠ .const ∧ op.operandWidth = 0)
    (h₁ : compileExpr ctx arg₁ false c = .value c₁)
    (h₂ : compileExpr ctx arg₂ false c₁ = .value c₂) :
    Emits ctx.runtime c (bodyLiterals [arg₁, arg₂]) [] (c₂.emitOp op) := by
  have hargs := (ih arg₁ hl.1 _ _ _ h₁).trans (ih arg₂ hl.2 _ _ _ h₂)
  simpa [bodyLiterals] using hargs.emitOp op hop

theorem compileCompare_emits {op : VmOpcode} (hl : sizeOf l < n)
    (hop : op ≠ .const ∧ op.operandWidth = 0)
    (h : compileCompare ctx op l c = .value c') :
    Emits ctx.runtime c (bodyLiterals l) [] c' := by
  unfold compileCompare at h
  split at h
  · simp only [Outcome.bind_eq_value_iff, Outcome.value.injEq] at h
    obtain ⟨c₁, h₁, c₂, h₂, rfl⟩ := h
    simp only [List.cons.sizeOf_spec] at hl
    exact binary_emits ih (by omega) hop h₁ h₂
  · cases h

theorem compileOperands_emits {op : VmOpcode} (hl : sizeOf l < n)
    (hop : op ≠ .const ∧ op.operandWidth = 0)
    (h : compileOperands ctx op l c = .value c') :
    Emits ctx.runtime c (bodyLiterals l) [] c' := by
  induction l generalizing c with
  | nil =>
      simp only [compileOperands, Outcome.value.injEq] at h
      exact h ▸ Emits.refl c
  | cons arg args ihl =>
      simp only [compileOperands, Outcome.bind_eq_value_iff] at h
      obtain ⟨c₁, h₁, h₂⟩ := h
      simp only [List.cons.sizeOf_spec] at hl
      exact ((ih arg (by omega) _ _ _ h₁).emitOp op hop).trans (ihl (by omega) h₂)

/-- A first operand and the ones after it. -/
theorem operands_emits {arg : Cell} {args : List Cell} {op : VmOpcode} {c₁ : Compiler}
    (hl : sizeOf (arg :: args) < n) (hop : op ≠ .const ∧ op.operandWidth = 0)
    (h₁ : compileExpr ctx arg false c = .value c₁)
    (h₂ : compileOperands ctx op args c₁ = .value c') :
    Emits ctx.runtime c (bodyLiterals (arg :: args)) [] c' := by
  simp only [List.cons.sizeOf_spec] at hl
  exact (ih arg (by omega) _ _ _ h₁).trans (compileOperands_emits ih (by omega) hop h₂)

theorem compileAdd_emits (hl : sizeOf l < n) (h : compileAdd ctx l c = .value c') :
    Emits ctx.runtime c (bodyLiterals l) [] c' := by
  unfold compileAdd at h
  split at h
  · exact Outcome.value.inj h ▸ (Emits.refl c).emitOp _ (by decide)
  · simp only [List.cons.sizeOf_spec] at hl
    split at h
    · rename_i hone
      simp only [Outcome.bind_eq_value_iff, Outcome.value.injEq] at h
      obtain ⟨c₁, h₁, rfl⟩ := h
      simpa [bodyLiterals, literals_of_isLong hone (.inl rfl)] using
        (ih _ (by omega) _ _ _ h₁).emitOp .add1 (by decide)
    · split at h
      · rename_i hone
        simp only [Outcome.bind_eq_value_iff, Outcome.value.injEq] at h
        obtain ⟨c₁, h₁, rfl⟩ := h
        simpa [bodyLiterals, literals_of_isLong hone (.inl rfl)] using
          (ih _ (by omega) _ _ _ h₁).emitOp .add1 (by decide)
      · simp only [Outcome.bind_eq_value_iff, Outcome.value.injEq] at h
        obtain ⟨c₁, h₁, c₂, h₂, rfl⟩ := h
        exact binary_emits ih (by omega) (by decide) h₁ h₂
  · simp only [Outcome.bind_eq_value_iff] at h
    obtain ⟨c₁, h₁, h₂⟩ := h
    exact operands_emits ih hl (by decide) h₁ h₂

theorem compileSubtract_emits (hl : sizeOf l < n)
    (h : compileSubtract ctx l c = .value c') :
    Emits ctx.runtime c (bodyLiterals l) [] c' := by
  unfold compileSubtract at h
  split at h
  · cases h
  · simp only [Outcome.bind_eq_value_iff, Outcome.value.injEq] at h
    obtain ⟨c₁, h₁, rfl⟩ := h
    simp only [List.cons.sizeOf_spec] at hl
    simpa [bodyLiterals] using (ih _ (by omega) _ _ _ h₁).emitOp .neg (by decide)
  · simp only [List.cons.sizeOf_spec] at hl
    split at h
    · rename_i hone
      simp only [Outcome.bind_eq_value_iff, Outcome.value.injEq] at h
      obtain ⟨c₁, h₁, rfl⟩ := h
      simpa [bodyLiterals, literals_of_isLong hone (.inl rfl)] using
        (ih _ (by omega) _ _ _ h₁).emitOp .sub1 (by decide)
    · split at h
      · rename_i htwo
        simp only [Outcome.bind_eq_value_iff, Outcome.value.injEq] at h
        obtain ⟨c₁, h₁, rfl⟩ := h
        simpa [bodyLiterals, literals_of_isLong htwo (.inr rfl)] using
          (ih _ (by omega) _ _ _ h₁).emitOp .sub2 (by decide)
      · simp only [Outcome.bind_eq_value_iff, Outcome.value.injEq] at h
        obtain ⟨c₁, h₁, c₂, h₂, rfl⟩ := h
        exact binary_emits ih (by omega) (by decide) h₁ h₂
  · simp only [Outcome.bind_eq_value_iff] at h
    obtain ⟨c₁, h₁, h₂⟩ := h
    exact operands_emits ih hl (by decide) h₁ h₂

theorem compileMultiply_emits (hl : sizeOf l < n)
    (h : compileMultiply ctx l c = .value c') :
    Emits ctx.runtime c (bodyLiterals l) [] c' := by
  unfold compileMultiply at h
  split at h
  · exact Outcome.value.inj h ▸ (Emits.refl c).emitOp _ (by decide)
  · simp only [Outcome.bind_eq_value_iff] at h
    obtain ⟨c₁, h₁, h₂⟩ := h
    exact operands_emits ih hl (by decide) h₁ h₂

theorem compileDivide_emits (hl : sizeOf l < n) (h : compileDivide ctx l c = .value c') :
    Emits ctx.runtime c (bodyLiterals l) [] c' := by
  unfold compileDivide at h
  split at h
  · simp only [Outcome.bind_eq_value_iff] at h
    obtain ⟨c₁, h₁, h₂⟩ := h
    exact operands_emits ih hl (by decide) h₁ h₂
  · cases h

/-- A list whose head is a symbol, given its smaller parts. -/
theorem compileForm_emits {hsym : Symbol} (hl : sizeOf l < n)
    (h : compileExpr ctx (.expression (.symbol hsym :: l)) isTail c = .value c') :
    Emits ctx.runtime c (literals (.expression (.symbol hsym :: l))) [] c' := by
  have hstart : Emits ctx.runtime c [] [] c := Emits.refl c
  cases compileForm_cases h with
  | if_ hname h => simpa [literals, hname] using compileIf_emits ih hl h
  | when hname h => simpa [literals, hname] using compileWhen_emits ih hl h
  | condNil hname hargs h =>
      have hnil := hstart.emitOp .nil (by decide)
      simpa [literals, hname, hargs, clauseLiterals, h] using hnil
  | cond hname c₁ jumps h₁ h =>
      have hnil := hstart.emitOp .nil (by decide)
      have hclauses := compileClauses_emits ih hl hnil h₁
      have hpatched := (hclauses.patchJumps fun _ hpos => hpos).close
      simpa [literals, hname, h] using hpatched
  | andNil hname hargs h =>
      have htrue := hstart.emitOp .true_ (by decide)
      simpa [literals, hname, hargs, bodyLiterals, h] using htrue
  | and hname c₁ jumps h₁ h =>
      have hand := compileAnd_emits ih hl (Emits.refl c) h₁
      have hexit := (hand.exitAnd fun _ hpos => hpos).close
      simpa [literals, hname, h] using hexit
  | orNil hname hargs h =>
      have hnil := hstart.emitOp .nil (by decide)
      simpa [literals, hname, hargs, bodyLiterals, h] using hnil
  | or hname c₁ jumps h₁ h =>
      have hor := compileOr_emits ih hl (Emits.refl c) h₁
      have hpatched := (hor.patchJumps fun _ hpos => hpos).close
      simpa [literals, hname, h] using hpatched
  | begin_ hname h => simpa [literals, hname] using compileBody_emits ih hl h
  | while_ hname h => simpa [literals, hname] using compileWhile_emits ih hl h
  | let_ hname h => simpa [literals, hname] using compileLet_emits ih hl h
  | local_ hname h => simpa [literals, hname] using compileLocal_emits ih hl h
  | dotimes hname h => simpa [literals, hname] using compileDotimes_emits ih hl h
  | set isSetq hname h =>
      have hset := compileSet_emits ih hl h
      cases isSetq <;> simpa [literals, hname] using hset
  | inc op1 op hname h =>
      rcases hname with ⟨hname, rfl, rfl⟩ | ⟨hname, rfl, rfl⟩
      · simpa [literals, hname] using compileInc_emits ih hl (by decide) (by decide) h
      · simpa [literals, hname] using compileInc_emits ih hl (by decide) (by decide) h
  | compare op hop h =>
      rw [literals_of_operator (operator_of_compareOpcode hop)]
      exact compileCompare_emits ih hl (compareOpcode_width hop) h
  | add hname h => simpa [literals, hname] using compileAdd_emits ih hl h
  | subtract hname h => simpa [literals, hname] using compileSubtract_emits ih hl h
  | multiply hname h => simpa [literals, hname] using compileMultiply_emits ih hl h
  | divide hname h => simpa [literals, hname] using compileDivide_emits ih hl h
  | callSelf hname _ c₁ h₁ h =>
      rw [literals_of_operator (operator_of_notMem hname), h]
      have hargs := compileArgs_emits ih hl h₁
      cases isTail
      · exact hargs.emitCall _ _ (by decide)
      · exact hargs.emitCall _ _ (by decide)
  | call hname _ _ c₁ h₁ h =>
      rw [literals_of_operator (operator_of_notMem hname), h]
      have hargs := ((Emits.refl c).compileSymbol ctx hsym).trans (compileArgs_emits ih hl h₁)
      cases isTail
      · exact hargs.emitCall _ _ (by decide)
      · exact hargs.emitCall _ _ (by decide)

/-- Any other list, given its smaller parts. -/
theorem compileCall_emits {head : Cell} (hhead : sizeOf head < n) (hl : sizeOf l < n)
    (hsym : ∀ s, head ≠ .symbol s)
    (h : compileExpr ctx (.expression (head :: l)) isTail c = .value c') :
    Emits ctx.runtime c (literals (.expression (head :: l))) [] c' := by
  rw [compileExpr] at h
  · simp only [Outcome.bind_eq_value_iff, Outcome.value.injEq] at h
    obtain ⟨c₁, h₁, c₂, h₂, rfl⟩ := h
    have hargs := (ih head hhead _ _ _ h₁).trans (compileArgs_emits ih hl h₂)
    rw [literals]
    · cases isTail
      · exact hargs.emitCall _ _ (by decide)
      · exact hargs.emitCall _ _ (by decide)
    · exact hsym
  · exact hsym

end

/-- Every expression emits its literals, whatever its size. -/
theorem smallEmits (ctx : CompileContext) (n : Nat) : SmallEmits ctx n := by
  induction n with
  | zero => intro e he; omega
  | succ n ih =>
      intro e he isTail c c' h
      cases e with
      | nil | true_ =>
          simp only [compileExpr, Outcome.value.injEq] at h
          exact h ▸ (Emits.refl c).emitOp _ (by decide)
      | long val =>
          simp only [compileExpr] at h
          split at h
          · rename_i hval
            simpa [literals, hval, ← Outcome.value.inj h] using
              (Emits.refl c).emitOp .const0 (by decide)
          split at h
          · rename_i hval
            simpa [literals, hval, ← Outcome.value.inj h] using
              (Emits.refl c).emitOp .const1 (by decide)
          split at h
          · rename_i hval
            simpa [literals, hval, ← Outcome.value.inj h] using
              (Emits.refl c).emitOp .const2 (by decide)
          · rename_i h0 h1 h2
            rw [literals, if_neg (by tauto)]
            exact emitConstant_emits h
      | float _ | string _ | quote _ =>
          simp only [compileExpr] at h
          simpa [literals] using emitConstant_emits h
      | symbol s =>
          simp only [compileExpr, Outcome.value.injEq] at h
          simpa [literals, ← h] using (Emits.refl c).compileSymbol ctx s
      | expression l =>
          cases l with
          | nil =>
              simp only [compileExpr, Outcome.value.injEq] at h
              simpa [literals, ← h] using (Emits.refl c).emitOp .nil (by decide)
          | cons head args =>
              simp only [Cell.expression.sizeOf_spec, List.cons.sizeOf_spec] at he
              by_cases hs : ∃ s, head = .symbol s
              · obtain ⟨s, rfl⟩ := hs
                exact compileForm_emits ih (by omega) h
              · exact compileCall_emits ih (by omega) (by omega)
                  (fun s hs' => hs ⟨s, hs'⟩) h
      | bigint _ | context _ | primitive _ | lambda _ _ | fexpr _ | array _ | dynSymbol _ _ =>
          simp [compileExpr] at h

/-- The code of a lambda takes its literals in their order, each from the place it got in
the pool of constants. -/
theorem compileLambda_literals {lambda : List Cell} {bc : Bytecode}
    (h : compileLambda ctx lambda = .value bc) :
    bc.constants = (internAll (comparesEqual ctx.runtime) [] (lambdaLiterals lambda)).2 ∧
      constantIndices bc.code =
        (internAll (comparesEqual ctx.runtime) [] (lambdaLiterals lambda)).1.map
          (· % 65536) := by
  unfold compileLambda at h
  split at h
  · rename_i params body
    simp only [Outcome.bind_eq_value_iff, Outcome.value.injEq] at h
    obtain ⟨⟨locals, numParams⟩, -, c, hbody, rfl⟩ := h
    have hemits := (compileBody_emits (smallEmits ctx _) (Nat.lt_succ_self _) hbody).emitOp
      .ret (by decide)
    obtain ⟨instrs, hcode, hsized, hconst, -⟩ := hemits.code
    refine ⟨hemits.constants_eq, ?_⟩
    rw [List.nil_append] at hcode
    show constOperands (disassemble _ (c.emitOp .ret).code) = _
    rw [hcode, disassemble_assemble hsized (Nat.le_refl _)]
    exact hconst
  · cases h

end NewLispNeo
