/-
The code of operands and of the operators over them, in the frame of a lambda
whose body is one operator applied to variables and integer literals.
-/
import NewLispNeo.Yields
import NewLispNeo.Parameters

namespace NewLispNeo

open StepRun Machine Compiler

/-- The pools and the sizes of a bytecode object that holds what `c` has
emitted so far. -/
structure Linked (bc : Bytecode) (c : Compiler) : Prop where
  constants : c.constants <+: bc.constants
  symbols : c.symbols <+: bc.symbols
  constants_small : bc.constants.length ≤ 65536
  symbols_small : bc.symbols.length ≤ 65536

theorem Linked.of_extends {bc : Bytecode} {c c' : Compiler}
    (h : Linked bc c') (he : Extends c c') : Linked bc c :=
  ⟨he.constants.trans h.constants, he.symbols.trans h.symbols,
    h.constants_small, h.symbols_small⟩

theorem getElem?_of_prefix {α : Type} {l l' : List α} (h : l <+: l') {i : Nat}
    {a : α} (ha : l[i]? = some a) : l'[i]? = some a := by
  obtain ⟨t, rfl⟩ := h
  rw [List.getElem?_append_left]
  · exact ha
  · exact (List.getElem?_eq_some_iff.mp ha).1

theorem Linked.symbol {bc : Bytecode} {c : Compiler} (h : Linked bc c)
    {i : Nat} {s : Symbol} (hs : c.symbols[i]? = some s) :
    bc.symbols[i]? = some s ∧ i < 65536 := by
  have h1 := getElem?_of_prefix h.symbols hs
  have h2 := (List.getElem?_eq_some_iff.mp h1).1
  have h3 := h.symbols_small
  exact ⟨h1, by omega⟩

theorem Linked.constant {bc : Bytecode} {c : Compiler} (h : Linked bc c)
    {i : Nat} {k : Cell} (hk : c.constants[i]? = some k) :
    bc.constants[i]? = some k ∧ i < 65536 := by
  have h1 := getElem?_of_prefix h.constants hk
  have h2 := (List.getElem?_eq_some_iff.mp h1).1
  have h3 := h.constants_small
  exact ⟨h1, by omega⟩

theorem compareCells_long_eq_zero {rt : Runtime} {k : Cell} {n : Word}
    (h : compareCells rt k (.long n) = .value 0) :
    (∃ x, k = .float x) ∨ (∃ x, k = .bigint x) ∨ k = .long n := by
  cases k <;> simp [compareCells, compareTypes, isFloat, isInt, isNil, isTrue,
    isSymbol, compareType, compareInts] at h ⊢
  · exact (compareWords_eq_zero_iff _ _).mp h
  all_goals (repeat' split at h) <;> simp_all

/-- An operand: a variable, or an integer literal.  The name of the compiled
function itself is not read as a variable. -/
def isOperand (ctx : CompileContext) : Cell → Prop
  | .symbol s =>
      s.name ≠ "self" ∧ ctx.selfSymbol ≠ some s ∧ s ≠ itSymbol
  | .long _ => True
  | _ => False

/-- What the tree-walker evaluates an operand to. -/
def operandVal (σ : Interp) : Cell → Val
  | .symbol s => Val.ofSymbol σ s
  | e => Val.temp e

theorem evalTo_operands {ctx : CompileContext} {vm : Bool} {fuel : Nat}
    {σ : Interp} {operands : List Cell} (h : ∀ e ∈ operands, isOperand ctx e) :
    EvalTo (evaluateExpression ctx vm (fuel + 1)) σ operands
      (operands.map (operandVal σ)) := by
  induction operands with
  | nil => exact List.Forall₂.nil
  | cons e es ih =>
      refine List.Forall₂.cons ?_ (ih fun e' he' => h e' (List.mem_cons_of_mem _ he'))
      have he := h e List.mem_cons_self
      cases e <;> simp only [isOperand] at he
      case long => rfl
      case symbol s =>
        simp [evaluateExpression, evaluateSymbol, he.2.2, operandVal]

/-- The frame `F` holds the variables in scope as `σb` does; the others are the
machine's globals. -/
structure FrameHolds (F : List Val) (locals : List (Option Symbol))
    (σ σb : Interp) : Prop where
  slot : ∀ s k, findLocalFrom s 0 locals = some k →
    k < 65536 ∧ ∃ v, F[k]? = some v ∧ v.deref σ = .value (σb.contents s)
  global : ∀ s, findLocalFrom s 0 locals = none →
    σ.contents s = σb.contents s

/-- Only integers get into the pool, so every constant is found as itself. -/
def LongPool (c : Compiler) : Prop := ∀ k ∈ c.constants, ∃ n, k = .long n

theorem ofSymbol_deref (σ : Interp) (s : Symbol) :
    (Val.ofSymbol σ s).deref σ = .value (σ.contents s) := by
  unfold Val.ofSymbol Val.deref
  by_cases h : (σ.bind s).id = 0 <;> simp [h]

section

variable {ctx : MachineContext} {m : Machine} {F ts : List Val}
  {c c' : Compiler} {e : Cell} {σb : Interp}

theorem compileSymbol_pools (cctx : CompileContext) (s : Symbol)
    (c : Compiler) : (compileSymbol cctx s c).constants = c.constants := by
  unfold compileSymbol
  split
  · unfold emitLoadLocal
    split <;> rfl
  · split
    · rfl
    · simp only [emitLoadGlobal, addSymbol]
      split <;> rfl

theorem compileOperand_longPool {isTail : Bool}
    (he : isOperand ctx.compile e)
    (h : compileExpr ctx.compile e isTail c = .value c') (hc : LongPool c) :
    LongPool c' := by
  cases e <;> simp only [isOperand] at he
  case long n =>
    simp only [compileExpr] at h
    split at h
    · exact (Outcome.value.inj h) ▸ hc
    split at h
    · exact (Outcome.value.inj h) ▸ hc
    split at h
    · exact (Outcome.value.inj h) ▸ hc
    · simp only [emitConstant, Outcome.bind_eq_value_iff,
        Outcome.value.injEq] at h
      obtain ⟨⟨i, c1⟩, h1, rfl⟩ := h
      simp only [addConstant, Outcome.bind_eq_value_iff] at h1
      obtain ⟨val, hval, found, -, h1⟩ := h1
      cases found with
      | some j =>
          simp only [Outcome.value.injEq, Prod.mk.injEq] at h1
          exact h1.2 ▸ hc
      | none =>
          simp only [Outcome.value.injEq, Prod.mk.injEq] at h1
          rw [← h1.2]
          intro k hk
          rcases List.mem_append.mp hk with hk | hk
          · exact hc k hk
          · simp only [copyToGen1, losesDigits, Bool.false_eq_true, ↓reduceIte,
              Outcome.value.injEq] at hval
            exact ⟨n, by simpa [hval] using hk⟩
  case symbol s =>
    simp only [compileExpr, Outcome.value.injEq] at h
    intro k hk
    rw [← h, compileSymbol_pools] at hk
    exact hc k hk

/-- The code of an operand pushes its value. -/
theorem yields_operand {isTail : Bool} (he : isOperand ctx.compile e)
    (h : compileExpr ctx.compile e isTail c = .value c') (hpool : LongPool c)
    (hF : FrameHolds F c.locals m.interp σb) (hfp : m.fp = 0)
    (hlink : Linked m.bytecode c') (hvs : m.vmStack = F ++ ts)
    (hbefore : m.Before (emitted c c')) :
    Yields ctx m (m.ip + (emitted c c').length) (F ++ ts)
      (.value (operandVal σb e).cell) := by
  cases e <;> simp only [isOperand] at he
  case long n =>
    simp only [compileExpr] at h
    split at h
    · rename_i hn
      obtain rfl := Outcome.value.inj h
      rw [emitted_of_code_eq (emitOp_code c _)] at *
      exact .value (w := Val.temp (.long 0)) (by rw [hn]; rfl)
        (hvs ▸ reaches_const0 hbefore)
    split at h
    · rename_i hn
      obtain rfl := Outcome.value.inj h
      rw [emitted_of_code_eq (emitOp_code c _)] at *
      exact .value (w := Val.temp (.long 1)) (by rw [hn]; rfl)
        (hvs ▸ reaches_const1 hbefore)
    split at h
    · rename_i hn
      obtain rfl := Outcome.value.inj h
      rw [emitted_of_code_eq (emitOp_code c _)] at *
      exact .value (w := Val.temp (.long 2)) (by rw [hn]; rfl)
        (hvs ▸ reaches_const2 hbefore)
    · simp only [emitConstant, Outcome.bind_eq_value_iff,
        Outcome.value.injEq] at h
      obtain ⟨⟨i, c1⟩, h1, rfl⟩ := h
      obtain ⟨hcode, -, k, hk, hkn⟩ := addConstant_eq h1
      have hkn : k = .long n := by
        rcases hkn with hkn | ⟨hmem, hcmp⟩
        · exact hkn
        · obtain ⟨n', rfl⟩ := hpool k hmem
          simpa using compareCells_long_eq_zero hcmp
      subst hkn
      have hbytes : emitted c ((c1.emitOp .const).emitUint16 i) =
          VmOpcode.const.toByte :: operand i := by
        apply emitted_of_code_eq
        simp [hcode]
      rw [hbytes] at hbefore ⊢
      obtain ⟨hk', hi⟩ := hlink.constant (i := i) (k := .long n) hk
      exact .value (w := Val.temp (.long n)) rfl
        (hvs ▸ reaches_const hbefore hk' hi)
  case symbol s =>
    simp only [compileExpr, Outcome.value.injEq] at h
    subst h
    unfold compileSymbol at hbefore hlink ⊢
    cases hfind : c.findLocal s with
    | some k =>
        obtain ⟨hk, v, hv, hderef⟩ := hF.slot s k hfind
        simp only [hfind] at hbefore ⊢
        rw [emitted_of_code_eq (emitLoadLocal_code c k)] at *
        refine .value hderef (hvs ▸ reaches_loadLocal hbefore hk ?_)
        rw [hvs, hfp, Nat.zero_add]
        exact getElem?_of_prefix (List.prefix_append F ts) hv
    | none =>
        have hself : ¬ (ctx.compile.selfSymbol = some s ∨ s.name = "self") := by
          rintro (h | h)
          · exact he.2.1 h
          · exact he.1 h
        simp only [hfind, if_neg hself] at hbefore hlink ⊢
        rw [emitted_of_code_eq (emitLoadGlobal_code c s)] at *
        have hsym := hlink.symbol (i := (c.addSymbol s).1) (s := s)
          (addSymbol_eq c s).2
        refine .value (w := Val.ofSymbol m.interp s) ?_
          (hvs ▸ reaches_loadGlobal hbefore hsym.1 hsym.2 ?_)
        · rw [ofSymbol_deref, hF.global s hfind]
          rfl
        · simp [evaluateSymbol, he.2.2]

end

end NewLispNeo
