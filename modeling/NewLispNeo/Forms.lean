/-
The forms `compileExpr` knows by the name of their head, each with what it compiles to.
-/
import NewLispNeo.Compiler
import Mathlib.Tactic.SplitIfs

namespace NewLispNeo

open Compiler

/-- The names of the forms. -/
def formNames : List String :=
  ["if", "when", "cond", "and", "or", "begin", "while", "let", "local", "dotimes", "setq",
    "set", "inc", "dec", "<", ">", "<=", ">=", "=", "!=", "+", "-", "*", "/"]

theorem mem_formNames_of_compareOpcode {name : String} {op : VmOpcode}
    (h : compareOpcode name = some op) :
    name ∈ ["<", ">", "<=", ">=", "=", "!="] := by
  unfold compareOpcode at h
  split_ifs at h <;> simp_all

/-- How a list whose head is the symbol `hsym` is compiled. -/
inductive FormCase (ctx : CompileContext) (hsym : Symbol) (args : List Cell) (isTail : Bool)
    (c c' : Compiler) : Prop where
  | if_ (hname : hsym.name = "if") (h : compileIf ctx args isTail c = .value c')
  | when (hname : hsym.name = "when") (h : compileWhen ctx args isTail c = .value c')
  | condNil (hname : hsym.name = "cond") (hargs : args = []) (h : c' = c.emitOp .nil)
  | cond (hname : hsym.name = "cond") (c₁ : Compiler) (endJumps : List Nat)
      (h₁ : compileClauses ctx args isTail (c.emitOp .nil) [] = .value (c₁, endJumps))
      (h : c' = c₁.patchJumps endJumps)
  | andNil (hname : hsym.name = "and") (hargs : args = []) (h : c' = c.emitOp .true_)
  | and (hname : hsym.name = "and") (c₁ : Compiler) (exitJumps : List Nat)
      (h₁ : compileAnd ctx args isTail c [] = .value (c₁, exitJumps))
      (h : c' = c₁.exitAnd exitJumps)
  | orNil (hname : hsym.name = "or") (hargs : args = []) (h : c' = c.emitOp .nil)
  | or (hname : hsym.name = "or") (c₁ : Compiler) (exitJumps : List Nat)
      (h₁ : compileOr ctx args isTail c [] = .value (c₁, exitJumps))
      (h : c' = c₁.patchJumps exitJumps)
  | begin_ (hname : hsym.name = "begin") (h : compileBody ctx args isTail c = .value c')
  | while_ (hname : hsym.name = "while") (h : compileWhile ctx args c = .value c')
  | let_ (hname : hsym.name = "let") (h : compileLet ctx args isTail c = .value c')
  | local_ (hname : hsym.name = "local") (h : compileLocal ctx args isTail c = .value c')
  | dotimes (hname : hsym.name = "dotimes") (h : compileDotimes ctx args c = .value c')
  | set (isSetq : Bool) (hname : hsym.name = if isSetq then "setq" else "set")
      (h : compileSet ctx isSetq args c = .value c')
  | inc (op1 op : VmOpcode)
      (hname : hsym.name = "inc" ∧ op1 = .add1 ∧ op = .add ∨
        hsym.name = "dec" ∧ op1 = .sub1 ∧ op = .sub)
      (h : compileInc ctx op1 op args c = .value c')
  | compare (op : VmOpcode) (hname : compareOpcode hsym.name = some op)
      (h : compileCompare ctx op args c = .value c')
  | add (hname : hsym.name = "+") (h : compileAdd ctx args c = .value c')
  | subtract (hname : hsym.name = "-") (h : compileSubtract ctx args c = .value c')
  | multiply (hname : hsym.name = "*") (h : compileMultiply ctx args c = .value c')
  | divide (hname : hsym.name = "/") (h : compileDivide ctx args c = .value c')
  | callSelf (hname : hsym.name ∉ formNames)
      (hself : ctx.selfSymbol = some hsym ∨ hsym.name = "self") (c₁ : Compiler)
      (h₁ : compileArgs ctx args c = .value c₁)
      (h : c' = c₁.emitCall (if isTail then .tailCallSelf else .callSelf) args.length)
  | call (hname : hsym.name ∉ formNames)
      (hself : ¬ (ctx.selfSymbol = some hsym ∨ hsym.name = "self"))
      (hspecial : isSpecialForm ctx hsym = false) (c₁ : Compiler)
      (h₁ : compileArgs ctx args (compileSymbol ctx hsym c) = .value c₁)
      (h : c' = c₁.emitCall (if isTail then .tailCall else .call) args.length)

variable {ctx : CompileContext} {hsym : Symbol} {args : List Cell} {isTail : Bool}
  {c c' : Compiler}

/-- Every list whose head is a symbol and that compiles is one of the forms. -/
theorem compileForm_cases
    (h : compileExpr ctx (.expression (.symbol hsym :: args)) isTail c = .value c') :
    FormCase ctx hsym args isTail c c' := by
  rw [compileExpr] at h
  by_cases h1 : hsym.name = "if"
  · rw [if_pos h1] at h
    exact .if_ h1 h
  rw [if_neg h1] at h
  by_cases h2 : hsym.name = "when"
  · rw [if_pos h2] at h
    exact .when h2 h
  rw [if_neg h2] at h
  by_cases h3 : hsym.name = "cond"
  · rw [if_pos h3] at h
    split at h
    · rename_i hargs
      exact .condNil h3 (List.isEmpty_iff.mp hargs) (Outcome.value.inj h).symm
    · simp only [Outcome.bind_eq_value_iff, Outcome.value.injEq] at h
      obtain ⟨⟨c₁, endJumps⟩, hclauses, rfl⟩ := h
      exact .cond h3 c₁ endJumps hclauses rfl
  rw [if_neg h3] at h
  by_cases h4 : hsym.name = "and"
  · rw [if_pos h4] at h
    split at h
    · rename_i hargs
      exact .andNil h4 (List.isEmpty_iff.mp hargs) (Outcome.value.inj h).symm
    · simp only [Outcome.bind_eq_value_iff, Outcome.value.injEq] at h
      obtain ⟨⟨c₁, exitJumps⟩, hand, rfl⟩ := h
      exact .and h4 c₁ exitJumps hand rfl
  rw [if_neg h4] at h
  by_cases h5 : hsym.name = "or"
  · rw [if_pos h5] at h
    split at h
    · rename_i hargs
      exact .orNil h5 (List.isEmpty_iff.mp hargs) (Outcome.value.inj h).symm
    · simp only [Outcome.bind_eq_value_iff, Outcome.value.injEq] at h
      obtain ⟨⟨c₁, exitJumps⟩, hor, rfl⟩ := h
      exact .or h5 c₁ exitJumps hor rfl
  rw [if_neg h5] at h
  by_cases h6 : hsym.name = "begin"
  · rw [if_pos h6] at h
    exact .begin_ h6 h
  rw [if_neg h6] at h
  by_cases h7 : hsym.name = "while"
  · rw [if_pos h7] at h
    exact .while_ h7 h
  rw [if_neg h7] at h
  by_cases h8 : hsym.name = "let"
  · rw [if_pos h8] at h
    exact .let_ h8 h
  rw [if_neg h8] at h
  by_cases h9 : hsym.name = "local"
  · rw [if_pos h9] at h
    exact .local_ h9 h
  rw [if_neg h9] at h
  by_cases h10 : hsym.name = "dotimes"
  · rw [if_pos h10] at h
    exact .dotimes h10 h
  rw [if_neg h10] at h
  by_cases h11 : hsym.name = "setq"
  · rw [if_pos h11] at h
    exact .set true h11 h
  rw [if_neg h11] at h
  by_cases h12 : hsym.name = "set"
  · rw [if_pos h12] at h
    exact .set false h12 h
  rw [if_neg h12] at h
  by_cases h13 : hsym.name = "inc"
  · rw [if_pos h13] at h
    exact .inc .add1 .add (.inl ⟨h13, rfl, rfl⟩) h
  rw [if_neg h13] at h
  by_cases h14 : hsym.name = "dec"
  · rw [if_pos h14] at h
    exact .inc .sub1 .sub (.inr ⟨h14, rfl, rfl⟩) h
  rw [if_neg h14] at h
  cases hop : compareOpcode hsym.name with
  | some op =>
      simp only [hop] at h
      exact .compare op hop h
  | none =>
  simp only [hop] at h
  by_cases h15 : hsym.name = "+"
  · rw [if_pos h15] at h
    exact .add h15 h
  rw [if_neg h15] at h
  by_cases h16 : hsym.name = "-"
  · rw [if_pos h16] at h
    exact .subtract h16 h
  rw [if_neg h16] at h
  by_cases h17 : hsym.name = "*"
  · rw [if_pos h17] at h
    exact .multiply h17 h
  rw [if_neg h17] at h
  by_cases h18 : hsym.name = "/"
  · rw [if_pos h18] at h
    exact .divide h18 h
  rw [if_neg h18] at h
  have hname : hsym.name ∉ formNames := by
    unfold compareOpcode at hop
    split_ifs at hop
    simp only [formNames, List.mem_cons, List.not_mem_nil, or_false, not_or]
    simp only [*, not_false_eq_true, and_self]
  by_cases hself : ctx.selfSymbol = some hsym ∨ hsym.name = "self"
  · rw [if_pos hself] at h
    simp only [Outcome.bind_eq_value_iff, Outcome.value.injEq] at h
    obtain ⟨c₁, hargs, rfl⟩ := h
    exact .callSelf hname hself c₁ hargs rfl
  rw [if_neg hself] at h
  by_cases hspecial : isSpecialForm ctx hsym = true
  · rw [if_pos hspecial] at h
    cases h
  rw [if_neg hspecial] at h
  simp only [Outcome.bind_eq_value_iff, Outcome.value.injEq] at h
  obtain ⟨c₁, hargs, rfl⟩ := h
  exact .call hname hself (Bool.eq_false_iff.mpr hspecial) c₁ hargs rfl

end NewLispNeo
