/-
The parameters of a lambda: what the tree-walker binds to each symbol, and what
the frame of its bytecode holds in the slot of that symbol.
-/
import NewLispNeo.Interpreter

namespace NewLispNeo

open Machine Compiler

/-- The symbols of a parameter list that get a slot. -/
def slotSymbols (params : List Symbol) : List Symbol :=
  params.filter (fun s => s.name ≠ ",")

/-- The parameters before the comma. -/
def numParamsOf (params : List Symbol) : Nat :=
  (params.takeWhile (fun s => s.name ≠ ",")).length

/-- The tree-walker's bindings of parameters to arguments; a missing argument
is `nil`. -/
def bindArgs (σ : Interp) : List Symbol → List Cell → Interp
  | [], _ => σ
  | s :: params, args =>
      bindArgs (σ.bindNew s (args.headD .nil)) params args.tail

section Compile

variable {params : List Symbol} {locals locals' : List (Option Symbol)}
  {n n' : Nat}

theorem compileParams_locals {inLocals : Bool}
    (h : compileParams (params.map .symbol) inLocals locals n =
      .value (locals', n')) (hlen : locals.length ≤ maxLocals) :
    locals' = locals ++ (slotSymbols params).map some ∧
      locals'.length ≤ maxLocals ∧
      n' = n + (if inLocals then 0 else numParamsOf params) := by
  induction params generalizing inLocals locals n with
  | nil =>
      simp only [List.map_nil, compileParams, Outcome.value.injEq,
        Prod.mk.injEq] at h
      obtain ⟨rfl, rfl⟩ := h
      exact ⟨by simp [slotSymbols], hlen, by simp [numParamsOf]⟩
  | cons s params ih =>
      simp only [List.map_cons, compileParams] at h
      by_cases hs : s.name = ","
      · rw [if_pos hs] at h
        obtain ⟨h1, h2, h3⟩ := ih h hlen
        exact ⟨by simp [h1, slotSymbols, hs], h2,
          by simp [h3, numParamsOf, hs]⟩
      · rw [if_neg hs] at h
        split at h
        · cases h
        · obtain ⟨h1, h2, h3⟩ := ih h (by
            simp only [List.length_append, List.length_singleton]; omega)
          refine ⟨by simp [h1, slotSymbols, hs], h2, ?_⟩
          cases inLocals
          · simp only [h3, numParamsOf, List.takeWhile_cons, hs, ne_eq,
              not_false_eq_true, decide_true, if_true, Bool.false_eq_true,
              if_false, List.length_cons]
            omega
          · simpa using h3

end Compile

section Slot

variable {s : Symbol} {i : Nat}

theorem findLocalFrom_eq_none_iff {locals : List (Option Symbol)} :
    findLocalFrom s i locals = none ↔ some s ∉ locals := by
  induction locals generalizing i with
  | nil => simp [findLocalFrom]
  | cons l locals ih =>
      simp only [findLocalFrom, List.mem_cons, not_or]
      cases h : findLocalFrom s (i + 1) locals with
      | some k =>
          have : ¬ some s ∉ locals := by rw [← ih (i := i + 1), h]; simp
          simp [this]
      | none =>
          have : some s ∉ locals := (ih (i := i + 1)).mp h
          simp [this, eq_comm]

theorem findLocalFrom_params_none {params : List Symbol} :
    findLocalFrom s i (params.map some) = none ↔ s ∉ params := by
  rw [findLocalFrom_eq_none_iff]
  simp

theorem findLocalFrom_range {locals : List (Option Symbol)} {k : Nat}
    (h : findLocalFrom s i locals = some k) :
    i ≤ k ∧ k < i + locals.length := by
  induction locals generalizing i with
  | nil => cases h
  | cons l locals ih =>
      simp only [findLocalFrom] at h
      cases hrec : findLocalFrom s (i + 1) locals with
      | some j =>
          simp only [hrec, Option.some.injEq] at h
          subst h
          obtain ⟨h1, h2⟩ := ih hrec
          simp only [List.length_cons]
          omega
      | none =>
          simp only [hrec] at h
          split at h
          · obtain rfl := Option.some.inj h
            simp
          · cases h

theorem bindArgs_contents_of_not_mem {params : List Symbol}
    (hs : s ∉ params) (σ : Interp) (args : List Cell) :
    (bindArgs σ params args).contents s = σ.contents s := by
  induction params generalizing σ args with
  | nil => rfl
  | cons p params ih =>
      simp only [List.mem_cons, not_or] at hs
      rw [bindArgs, ih hs.2, Interp.bindNew_contents_ne _ _ hs.1]

/-- The last occurrence of a symbol decides what it is bound to. -/
theorem bindArgs_contents {params : List Symbol} {k : Nat}
    (h : findLocalFrom s i (params.map some) = some k) (σ : Interp)
    (args : List Cell) :
    (bindArgs σ params args).contents s = (args[k - i]?).getD .nil := by
  induction params generalizing args i σ with
  | nil => cases h
  | cons p params ih =>
      simp only [List.map_cons, findLocalFrom] at h
      cases hfind : findLocalFrom s (i + 1) (params.map some) with
      | some j =>
          simp only [hfind, Option.some.injEq] at h
          subst h
          have hle := (findLocalFrom_range hfind).1
          rw [bindArgs, ih hfind, show j - i = (j - (i + 1)) + 1 by omega]
          cases args <;> rfl
      | none =>
          have hmem := findLocalFrom_params_none.mp hfind
          simp only [hfind, Option.some.injEq] at h
          split at h
          · rename_i hp
            subst hp
            obtain rfl := Option.some.inj h
            rw [bindArgs, bindArgs_contents_of_not_mem hmem]
            cases args <;> simp
          · cases h

/-- `evaluateLambda` binds a list of unprotected symbols by `bindArgs`. -/
theorem bindParams_symbols {flags : SymbolFlags} {ev : Evaluator}
    {params : List Symbol} (hp : ∀ s ∈ params, isProtected flags s = false)
    (σ : Interp) (saved : Environment) (args : List Cell) :
    ∃ saved', bindParams ev flags σ saved (params.map .symbol) args =
      .value (bindArgs σ params args, saved', args.drop params.length) := by
  induction params generalizing σ saved args with
  | nil => exact ⟨saved, by simp [bindParams, bindArgs]⟩
  | cons s params ih =>
      obtain ⟨saved', h⟩ := ih
        (fun s hs => hp s (List.mem_cons_of_mem _ hs))
        (σ.bindNew s (args.headD .nil)) ((s, σ.bind s) :: saved) args.tail
      refine ⟨saved', ?_⟩
      simp only [List.map_cons, bindParams, pushSymbol,
        hp s List.mem_cons_self, Bool.false_eq_true, if_false,
        Outcome.value_bind, h, bindArgs, List.length_cons, List.drop_tail]

end Slot

section Frame

variable {bc : Bytecode} {args : List Val} {k : Nat}

theorem padTo_getElem? {n : Nat} (hk : k < max n args.length) :
    (padTo n args)[k]? = some (args[k]?.getD Val.nilCell) := by
  unfold padTo
  by_cases h : k < args.length
  · rw [List.getElem?_append_left h]
    simp [List.getElem?_eq_getElem h]
  · rw [List.getElem?_append_right (by omega), List.getElem?_replicate,
      if_pos (by omega), List.getElem?_eq_none (by omega)]
    rfl

theorem padTo_length (n : Nat) :
    (padTo n args).length = max n args.length := by
  simp only [padTo, List.length_append, List.length_replicate]
  omega

theorem frameOf_length :
    (frameOf bc args).length =
      max bc.numLocals (max bc.numParams args.length) := by
  rw [frameOf, padTo_length, padTo_length]

/-- A slot holds the argument at its place, or `nilCell`. -/
theorem frameOf_getElem?
    (hk : k < max bc.numLocals (max bc.numParams args.length)) :
    (frameOf bc args)[k]? = some (args[k]?.getD Val.nilCell) := by
  unfold frameOf
  rw [padTo_getElem? (by rw [padTo_length]; exact hk)]
  by_cases h : k < max bc.numParams args.length
  · rw [padTo_getElem? h, Option.getD_some]
  · rw [List.getElem?_eq_none (by rw [padTo_length]; omega),
      List.getElem?_eq_none (by omega)]

/-- As `frameOf_getElem?`, for arguments that are cells of their own. -/
theorem frameOf_temp {cells : List Cell}
    (hk : k < max bc.numLocals (max bc.numParams cells.length)) (σ : Interp) :
    ∃ v, (frameOf bc (cells.map Val.temp))[k]? = some v ∧
      v.deref σ = .value ((cells[k]?).getD .nil) := by
  refine ⟨_, frameOf_getElem? (by simpa using hk), ?_⟩
  cases h : cells[k]? with
  | none => simp [h]; rfl
  | some c => simp [h]

end Frame

/-- The compiler before the body of a lambda. -/
def bodyCompiler (params : List Symbol) : Compiler :=
  { locals := (slotSymbols params).map some
    maxLocals := (slotSymbols params).length
    code := []
    constants := []
    symbols := []
    jumps := [] }

/-- What `compileLambda` makes of a lambda whose parameters are symbols. -/
theorem compileLambda_eq {ctx : CompileContext} {params : List Symbol}
    {body : List Cell} {bc : Bytecode}
    (h : compileLambda ctx (.expression (params.map .symbol) :: body) =
      .value bc) :
    ∃ c, compileBody ctx body true (bodyCompiler params) = .value c ∧
      (slotSymbols params).length ≤ maxLocals ∧
      bc = { code := (c.emitOp .ret).code
             constants := c.constants
             symbols := c.symbols
             numParams := numParamsOf params
             numLocals := c.maxLocals } := by
  simp only [compileLambda, Outcome.bind_eq_value_iff, Prod.exists] at h
  obtain ⟨locals, n, hparams, c, hc, h⟩ := h
  obtain ⟨rfl, hlen, rfl⟩ := compileParams_locals hparams (Nat.zero_le _)
  simp only [List.nil_append, List.length_map] at hc hlen
  refine ⟨c, hc, hlen, ?_⟩
  simpa using (Outcome.value.inj h).symm

theorem slotSymbols_eq_self {params : List Symbol}
    (h : ∀ s ∈ params, s.name ≠ ",") : slotSymbols params = params := by
  simpa [slotSymbols] using h

end NewLispNeo
