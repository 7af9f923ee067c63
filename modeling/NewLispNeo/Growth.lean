/-
Compiling an expression only adds to the compiler's state: code, constants and symbols
get longer, the symbols alone or inside a constant are those of the expression, and the
locals are the same again afterwards.
-/
import NewLispNeo.Forms

namespace NewLispNeo

open Compiler

/-- A list of cells refers only to symbols with the property. -/
def Spelled (P : Symbol → Prop) (l : List Cell) : Prop :=
  ∀ s ∈ Cell.symbolsList l, P s

/-- So do the pools of the compiler. -/
structure Mentions (P : Symbol → Prop) (c : Compiler) : Prop where
  symbols : ∀ s ∈ c.symbols, P s
  constants : Spelled P c.constants

section Mentions

variable {P : Symbol → Prop} {c c' : Compiler} {l : List Cell}

theorem spelled_iff : Spelled P l ↔ ∀ e ∈ l, ∀ s ∈ e.symbols, P s := by
  simp only [Spelled, Cell.mem_symbolsList]
  exact ⟨fun h e he s hs => h s ⟨e, he, hs⟩, fun h s ⟨e, he, hs⟩ => h e he s hs⟩

@[simp] theorem spelled_nil : Spelled P [] := by simp [spelled_iff]

@[simp] theorem spelled_cons {e : Cell} :
    Spelled P (e :: l) ↔ (∀ s ∈ e.symbols, P s) ∧ Spelled P l := by
  simp only [spelled_iff, List.forall_mem_cons]

theorem spelled_append {l' : List Cell} :
    Spelled P (l ++ l') ↔ Spelled P l ∧ Spelled P l' := by
  simp only [spelled_iff, List.forall_mem_append]

@[simp] theorem spelled_expression :
    (∀ s ∈ (Cell.expression l).symbols, P s) ↔ Spelled P l := by
  rw [Cell.symbols_expression, Spelled]

@[simp] theorem spelled_symbol {s : Symbol} :
    (∀ s' ∈ (Cell.symbol s).symbols, P s') ↔ P s := by simp [Cell.symbols]

@[simp] theorem spelled_quote {e : Cell} :
    (∀ s ∈ (Cell.quote e).symbols, P s) ↔ ∀ s ∈ e.symbols, P s := by
  simp [Cell.symbols]

namespace Mentions

/-- What leaves the pools as they are. -/
theorem of_pools (h : Mentions P c) (hs : c'.symbols = c.symbols)
    (hk : c'.constants = c.constants) : Mentions P c' :=
  ⟨hs ▸ h.symbols, hk ▸ h.constants⟩

theorem addSymbol (h : Mentions P c) {s : Symbol} (hs : P s) :
    Mentions P (c.addSymbol s).2 := by
  unfold Compiler.addSymbol
  split
  · exact h
  · refine ⟨fun t ht => ?_, h.constants⟩
    rcases List.mem_append.mp ht with ht | ht
    · exact h.symbols t ht
    · exact List.mem_singleton.mp ht ▸ hs

theorem addConstant {rt : Runtime} {val : Cell} {idx : Nat} (h : Mentions P c)
    (hval : ∀ s ∈ val.symbols, P s)
    (hadd : c.addConstant rt val = .value (idx, c')) : Mentions P c' := by
  simp only [Compiler.addConstant, Outcome.bind_eq_value_iff] at hadd
  obtain ⟨val', hcopy, found, -, hadd⟩ := hadd
  have hsame : val' = val := by
    unfold copyToGen1 at hcopy
    split at hcopy
    · cases hcopy
    · exact (Outcome.value.inj hcopy).symm
  cases found with
  | some i =>
      simp only [Outcome.value.injEq, Prod.mk.injEq] at hadd
      exact hadd.2 ▸ h
  | none =>
      simp only [Outcome.value.injEq, Prod.mk.injEq] at hadd
      obtain ⟨-, rfl⟩ := hadd
      refine ⟨h.symbols, spelled_append.mpr ⟨h.constants, ?_⟩⟩
      simpa [hsame] using hval

end Mentions

theorem assignTarget_symbols {isSetq : Bool} {e : Cell} {s : Symbol}
    (he : ∀ t ∈ e.symbols, P t) (h : assignTarget isSetq e = some s) : P s := by
  cases isSetq <;> unfold assignTarget at h <;> split at h <;>
    simp_all [Cell.symbols]

theorem incTarget_symbols {e : Cell} {s : Symbol}
    (he : ∀ t ∈ e.symbols, P t) (h : incTarget e = some s) : P s := by
  unfold incTarget at h
  split at h <;> simp_all [Cell.symbols]

theorem spelled_true : Spelled (fun _ => True) l := fun _ _ => trivial

end Mentions

namespace Compiler

/-- `c'` has everything `c` has, and in its pools no other symbols than those with the
property. -/
structure GrowsBy (P : Symbol → Prop) (c c' : Compiler) : Prop where
  locals : c.locals <+: c'.locals
  maxLocals : c.maxLocals ≤ c'.maxLocals
  code : c.code <+: c'.code
  constants : c.constants <+: c'.constants
  symbols : c.symbols <+: c'.symbols
  mentions : Mentions P c → Mentions P c'

/-- So `c'` has, and the same locals in scope. -/
structure ExtendsBy (P : Symbol → Prop) (c c' : Compiler) : Prop extends GrowsBy P c c' where
  locals_eq : c'.locals = c.locals

/-- `c'` has everything `c` has. -/
abbrev Grows (c c' : Compiler) : Prop := GrowsBy (fun _ => True) c c'

/-- `c'` has everything `c` has, and the same locals in scope. -/
abbrev Extends (c c' : Compiler) : Prop := ExtendsBy (fun _ => True) c c'

variable {P : Symbol → Prop}

namespace GrowsBy

variable {c c' c'' : Compiler}

theorem refl (c : Compiler) : GrowsBy P c c :=
  ⟨List.prefix_rfl, le_rfl, List.prefix_rfl, List.prefix_rfl, List.prefix_rfl, id⟩

theorem trans (h : GrowsBy P c c') (h' : GrowsBy P c' c'') : GrowsBy P c c'' :=
  ⟨h.locals.trans h'.locals, h.maxLocals.trans h'.maxLocals,
    h.code.trans h'.code, h.constants.trans h'.constants,
    h.symbols.trans h'.symbols, h'.mentions ∘ h.mentions⟩

end GrowsBy

theorem Grows.refl (c : Compiler) : Grows c c := GrowsBy.refl c

theorem prefix_set {α : Type} {l l' : List α} (h : l <+: l') {i : Nat}
    (hi : l.length ≤ i) (a : α) : l <+: l'.set i a := by
  obtain ⟨t, rfl⟩ := h
  rw [List.set_append_right _ _ hi]
  exact List.prefix_append _ _

namespace ExtendsBy

variable {c c' c'' : Compiler}

theorem toGrows (h : ExtendsBy P c c') : GrowsBy P c c' := h.toGrowsBy

theorem refl (c : Compiler) : ExtendsBy P c c := ⟨GrowsBy.refl c, rfl⟩

theorem trans (h : ExtendsBy P c c') (h' : ExtendsBy P c' c'') : ExtendsBy P c c'' :=
  ⟨h.toGrows.trans h'.toGrows, h'.locals_eq.trans h.locals_eq⟩

theorem length_le (h : ExtendsBy P c c') : c.code.length ≤ c'.code.length :=
  h.code.length_le

theorem emitByte (h : ExtendsBy P c c') (b : UInt8) : ExtendsBy P c (c'.emitByte b) :=
  h.trans ⟨⟨List.prefix_rfl, le_rfl, List.prefix_append _ _, List.prefix_rfl,
    List.prefix_rfl, fun hm => hm.of_pools rfl rfl⟩, rfl⟩

theorem emitOp (h : ExtendsBy P c c') (op : VmOpcode) : ExtendsBy P c (c'.emitOp op) :=
  h.emitByte _

theorem emitUint16 (h : ExtendsBy P c c') (n : Nat) :
    ExtendsBy P c (c'.emitUint16 n) := (h.emitByte _).emitByte _

theorem emitJump (h : ExtendsBy P c c') (op : VmOpcode) :
    ExtendsBy P c (c'.emitJump op).2 := (h.emitOp op).emitUint16 0

theorem setJump (h : ExtendsBy P c c') {pos : Nat} (hpos : c.code.length ≤ pos)
    (offset : Int) : ExtendsBy P c (c'.setJump pos offset) :=
  ⟨⟨h.locals, h.maxLocals,
    prefix_set (prefix_set h.code hpos _) (hpos.trans (Nat.le_succ _)) _,
    h.constants, h.symbols, fun hm => (h.mentions hm).of_pools rfl rfl⟩, h.locals_eq⟩

theorem patchJump (h : ExtendsBy P c c') {pos : Nat} (hpos : c.code.length ≤ pos) :
    ExtendsBy P c (c'.patchJump pos) := h.setJump hpos _

theorem patchJumps (h : ExtendsBy P c c') {jumps : List Nat}
    (hpos : ∀ pos ∈ jumps, c.code.length ≤ pos) :
    ExtendsBy P c (c'.patchJumps jumps) := by
  induction jumps generalizing c' with
  | nil => exact h
  | cons pos jumps ih =>
      have h1 := h.patchJump (hpos pos List.mem_cons_self)
      exact ih h1 fun p hp => hpos p (List.mem_cons_of_mem _ hp)

/-- Where `emitJump` leaves its offset is past what was there before. -/
theorem le_jumpPos (h : ExtendsBy P c c') (op : VmOpcode) :
    c.code.length ≤ (c'.emitJump op).1 := h.length_le.trans (Nat.le_succ _)

theorem jumpBack (h : ExtendsBy P c c') (loopStart : Nat) :
    ExtendsBy P c (c'.jumpBack loopStart) :=
  (h.emitJump .jump).setJump (h.le_jumpPos .jump) _

theorem addSymbol (h : ExtendsBy P c c') (s : Symbol) (hs : P s) :
    ExtendsBy P c (c'.addSymbol s).2 := by
  have hmentions : Mentions P c → Mentions P (c'.addSymbol s).2 :=
    fun hm => (h.mentions hm).addSymbol hs
  unfold Compiler.addSymbol at hmentions ⊢
  split
  · exact h
  next hnew =>
    rw [if_neg hnew] at hmentions
    exact ⟨⟨h.locals, h.maxLocals, h.code, h.constants,
      h.symbols.trans (List.prefix_append _ _), hmentions⟩, h.locals_eq⟩

theorem emitLoadLocal (h : ExtendsBy P c c') (slot : Nat) :
    ExtendsBy P c (c'.emitLoadLocal slot) := by
  unfold Compiler.emitLoadLocal
  split
  · exact h.emitOp _
  · exact h.emitOp _
  · exact h.emitOp _
  · exact h.emitOp _
  · exact (h.emitOp _).emitUint16 _

theorem emitStoreLocal (h : ExtendsBy P c c') (slot : Nat) :
    ExtendsBy P c (c'.emitStoreLocal slot) := by
  unfold Compiler.emitStoreLocal
  split
  · exact h.emitOp _
  · exact h.emitOp _
  · exact h.emitOp _
  · exact h.emitOp _
  · exact (h.emitOp _).emitUint16 _

theorem emitLoadGlobal (h : ExtendsBy P c c') (s : Symbol) (hs : P s) :
    ExtendsBy P c (c'.emitLoadGlobal s) :=
  ((h.addSymbol s hs).emitOp _).emitUint16 _

theorem emitAssign (h : ExtendsBy P c c') (slot : Option Nat) (s : Symbol)
    (hs : P s) : ExtendsBy P c (c'.emitAssign slot s) := by
  cases slot with
  | none => exact (((h.emitOp _).addSymbol s hs).emitOp _).emitUint16 _
  | some slot => exact (h.emitOp _).emitStoreLocal _

theorem emitCall (h : ExtendsBy P c c') (op : VmOpcode) (argc : Nat) :
    ExtendsBy P c (c'.emitCall op argc) := (h.emitOp op).emitByte _

theorem exitAnd (h : ExtendsBy P c c') {jumps : List Nat}
    (hpos : ∀ pos ∈ jumps, c.code.length ≤ pos) :
    ExtendsBy P c (c'.exitAnd jumps) := by
  unfold Compiler.exitAnd
  split
  · exact h
  · exact (((h.emitJump .jump).patchJumps hpos).emitOp .nil).patchJump
      (h.le_jumpPos .jump)

theorem compileSymbol (h : ExtendsBy P c c') (ctx : CompileContext) (s : Symbol)
    (hs : P s) : ExtendsBy P c (compileSymbol ctx s c') := by
  unfold NewLispNeo.compileSymbol
  split
  · exact h.emitLoadLocal _
  · split
    · exact h.emitOp _
    · exact h.emitLoadGlobal _ hs

end ExtendsBy

theorem Extends.refl (c : Compiler) : Extends c c := ExtendsBy.refl c

theorem addConstant_extends {rt : Runtime} {c c' : Compiler} {val : Cell} {i : Nat}
    (hval : ∀ s ∈ val.symbols, P s) (h : c.addConstant rt val = .value (i, c')) :
    ExtendsBy P c c' := by
  have hmentions := fun hm : Mentions P c => hm.addConstant hval h
  simp only [addConstant, Outcome.bind_eq_value_iff] at h
  obtain ⟨val', -, found, -, h⟩ := h
  cases found with
  | none =>
      simp only [Outcome.value.injEq, Prod.mk.injEq] at h
      obtain ⟨-, rfl⟩ := h
      exact ⟨⟨List.prefix_rfl, le_rfl, List.prefix_rfl,
        List.prefix_append _ _, List.prefix_rfl, hmentions⟩, rfl⟩
  | some j =>
      simp only [Outcome.value.injEq, Prod.mk.injEq] at h
      obtain ⟨-, rfl⟩ := h
      exact ExtendsBy.refl c

theorem emitConstant_extends {rt : Runtime} {c c' : Compiler} {val : Cell}
    (hval : ∀ s ∈ val.symbols, P s) (h : c.emitConstant rt val = .value c') :
    ExtendsBy P c c' := by
  simp only [emitConstant, Outcome.bind_eq_value_iff] at h
  obtain ⟨⟨i, c1⟩, h1, h⟩ := h
  simp only [Outcome.value.injEq] at h
  rw [← h]
  exact ((addConstant_extends hval h1).emitOp _).emitUint16 _

/-- A new local is the only change `addLocal` makes. -/
theorem addLocal_eq {c c' : Compiler} {s : Option Symbol} {slot : Nat}
    (h : c.addLocal s = .value (slot, c')) :
    slot = c.locals.length ∧ c.locals.length < NewLispNeo.maxLocals ∧
      c' = { c with
        locals := c.locals ++ [s]
        maxLocals := max c.maxLocals (c.locals.length + 1) } := by
  unfold addLocal at h
  split at h
  · cases h
  · simp only [Outcome.value.injEq, Prod.mk.injEq] at h
    exact ⟨h.1.symm, by omega, h.2.symm⟩

theorem addLocal_grows {c c' : Compiler} {s : Option Symbol} {slot : Nat}
    (h : c.addLocal s = .value (slot, c')) : GrowsBy P c c' := by
  obtain ⟨-, -, rfl⟩ := addLocal_eq h
  exact ⟨List.prefix_append _ _, le_max_left _ _, List.prefix_rfl,
    List.prefix_rfl, List.prefix_rfl, fun hm => hm.of_pools rfl rfl⟩

/-- Leaving a scope brings the locals back. -/
theorem restoreLocals_extends {c c' : Compiler} (h : GrowsBy P c c') :
    ExtendsBy P c (c'.restoreLocals c.locals.length) := by
  have htake : c'.locals.take c.locals.length = c.locals :=
    (List.prefix_iff_eq_take.mp h.locals).symm
  refine ⟨⟨?_, h.maxLocals, h.code, h.constants, h.symbols,
    fun hm => (h.mentions hm).of_pools rfl rfl⟩, htake⟩
  simp only [restoreLocals, htake]
  exact List.prefix_rfl

end Compiler

variable {P : Symbol → Prop}

theorem compileVars_grows {l : List Cell} {c c' : Compiler}
    (h : compileVars l c = .value c') : GrowsBy P c c' := by
  induction l generalizing c with
  | nil =>
      simp only [compileVars, Outcome.value.injEq] at h
      exact h ▸ GrowsBy.refl c
  | cons v vars ihl =>
      cases v with
      | symbol s =>
          simp only [compileVars, Outcome.bind_eq_value_iff] at h
          obtain ⟨⟨slot, c1⟩, h1, h2⟩ := h
          exact ((addLocal_grows h1).trans
            (((ExtendsBy.refl c1).emitOp _).emitStoreLocal slot).toGrows).trans
              (ihl h2)
      | _ => simp [compileVars] at h

/-- The subexpressions smaller than `n` compile to extensions by their own symbols. -/
def SmallExtends (P : Symbol → Prop) (ctx : CompileContext) (n : Nat) : Prop :=
  ∀ e : Cell, sizeOf e < n → (∀ s ∈ e.symbols, P s) → ∀ isTail c c',
    compileExpr ctx e isTail c = .value c' → ExtendsBy P c c'

section

variable {ctx : CompileContext} {n : Nat} (ih : SmallExtends P ctx n)
  {l : List Cell} {isTail : Bool} {c c' : Compiler}

include ih

theorem compileArgs_extends (hl : sizeOf l < n) (hP : Spelled P l)
    (h : compileArgs ctx l c = .value c') : ExtendsBy P c c' := by
  induction l generalizing c with
  | nil =>
      simp only [compileArgs, Outcome.value.injEq] at h
      exact h ▸ ExtendsBy.refl c
  | cons arg args ihl =>
      simp only [compileArgs, Outcome.bind_eq_value_iff] at h
      obtain ⟨c1, h1, h2⟩ := h
      simp only [List.cons.sizeOf_spec] at hl
      obtain ⟨harg, hargs⟩ := spelled_cons.mp hP
      exact (ih arg (by omega) harg _ _ _ h1).trans (ihl (by omega) hargs h2)

theorem compileBody_extends (hl : sizeOf l < n) (hP : Spelled P l)
    (h : compileBody ctx l isTail c = .value c') : ExtendsBy P c c' := by
  induction l generalizing c with
  | nil =>
      simp only [compileBody, Outcome.value.injEq] at h
      exact h ▸ (ExtendsBy.refl c).emitOp _
  | cons body rest ihl =>
      simp only [List.cons.sizeOf_spec] at hl
      obtain ⟨hbody, hrest⟩ := spelled_cons.mp hP
      cases rest with
      | nil =>
          simp only [compileBody] at h
          exact ih body (by omega) hbody _ _ _ h
      | cons e rest =>
          simp only [compileBody, Outcome.bind_eq_value_iff] at h
          obtain ⟨c1, h1, h2⟩ := h
          exact ((ih body (by omega) hbody _ _ _ h1).emitOp _).trans
            (ihl (by omega) hrest h2)

theorem compileLoopBody_extends (hl : sizeOf l < n) (hP : Spelled P l)
    (h : compileLoopBody ctx l c = .value c') : ExtendsBy P c c' := by
  induction l generalizing c with
  | nil =>
      simp only [compileLoopBody, Outcome.value.injEq] at h
      exact h ▸ ExtendsBy.refl c
  | cons body rest ihl =>
      simp only [compileLoopBody, Outcome.bind_eq_value_iff] at h
      obtain ⟨c1, h1, h2⟩ := h
      simp only [List.cons.sizeOf_spec] at hl
      obtain ⟨hbody, hrest⟩ := spelled_cons.mp hP
      exact ((ih body (by omega) hbody _ _ _ h1).emitOp _).trans (ihl (by omega) hrest h2)

theorem compileFirst_extends (hl : sizeOf l < n) (hP : Spelled P l)
    (h : compileFirst ctx l isTail c = .value c') : ExtendsBy P c c' := by
  cases l with
  | nil =>
      simp only [compileFirst, Outcome.value.injEq] at h
      exact h ▸ (ExtendsBy.refl c).emitOp _
  | cons e l =>
      simp only [compileFirst] at h
      simp only [List.cons.sizeOf_spec] at hl
      exact ih e (by omega) (spelled_cons.mp hP).1 _ _ _ h

theorem compileIf_extends (hl : sizeOf l < n) (hP : Spelled P l)
    (h : compileIf ctx l isTail c = .value c') : ExtendsBy P c c' := by
  match l with
  | [] | [_] => simp [compileIf] at h
  | cond :: thenExpr :: elseExpr =>
      simp only [List.cons.sizeOf_spec] at hl
      simp only [spelled_cons] at hP
      simp only [compileIf, Outcome.bind_eq_value_iff,
        Outcome.value.injEq] at h
      obtain ⟨c1, h1, c2, h2, c3, h3, rfl⟩ := h
      have e1 := ih cond (by omega) hP.1 _ _ _ h1
      have e2 := (e1.emitJump _).trans (ih thenExpr (by omega) hP.2.1 _ _ _ h2)
      have e3 := ((e2.emitJump .jump).patchJump (e1.le_jumpPos .jumpIfNil)).trans
        (compileFirst_extends ih (by omega) hP.2.2 h3)
      exact e3.patchJump (e2.le_jumpPos .jump)

theorem compileWhen_extends (hl : sizeOf l < n) (hP : Spelled P l)
    (h : compileWhen ctx l isTail c = .value c') : ExtendsBy P c c' := by
  match l with
  | [] => simp [compileWhen] at h
  | [cond] =>
      simp only [List.cons.sizeOf_spec] at hl
      simp only [compileWhen] at h
      exact ih cond (by omega) (spelled_cons.mp hP).1 _ _ _ h
  | cond :: e :: body =>
      have hl' : sizeOf cond < n ∧ sizeOf (e :: body) < n := by
        simp only [List.cons.sizeOf_spec] at hl ⊢
        omega
      obtain ⟨hcond, hbody⟩ := spelled_cons.mp hP
      simp only [compileWhen, Outcome.bind_eq_value_iff,
        Outcome.value.injEq] at h
      obtain ⟨c1, h1, c2, h2, rfl⟩ := h
      have e1 := ih cond hl'.1 hcond _ _ _ h1
      have e2 := (e1.emitJump _).trans (compileBody_extends ih hl'.2 hbody h2)
      exact (((e2.emitJump .jump).patchJump
        (e1.le_jumpPos .jumpIfNil)).emitOp _).patchJump (e2.le_jumpPos .jump)

/-- The jumps of a `cond` lie in the code of its clauses. -/
theorem compileClauses_extends {c0 : Compiler} {jumps jumps' : List Nat}
    (hl : sizeOf l < n) (hP : Spelled P l) (h0 : ExtendsBy P c0 c)
    (hj : ∀ pos ∈ jumps, c0.code.length ≤ pos)
    (h : compileClauses ctx l isTail c jumps = .value (c', jumps')) :
    ExtendsBy P c0 c' ∧ ∀ pos ∈ jumps', c0.code.length ≤ pos := by
  induction l generalizing c jumps with
  | nil =>
      simp only [compileClauses, Outcome.value.injEq, Prod.mk.injEq] at h
      obtain ⟨rfl, rfl⟩ := h
      exact ⟨h0, hj⟩
  | cons clause clauses ihl =>
      obtain ⟨hclause, hclauses⟩ := spelled_cons.mp hP
      match clause with
      | .expression [] =>
          simp only [compileClauses] at h
          simp only [List.cons.sizeOf_spec] at hl
          exact ihl (by omega) hclauses h0 hj h
      | .expression (test :: body) =>
          simp only [compileClauses, Outcome.bind_eq_value_iff] at h
          obtain ⟨c1, h1, c2, h2, h3⟩ := h
          simp only [List.cons.sizeOf_spec, Cell.expression.sizeOf_spec] at hl
          rw [spelled_expression, spelled_cons] at hclause
          have e1 := (h0.emitOp .pop).trans (ih test (by omega) hclause.1 _ _ _ h1)
          have e2 : ExtendsBy P c0 c2 := by
            split at h2
            · simp only [Outcome.value.injEq] at h2
              exact h2 ▸ (e1.emitOp .dup).emitJump .jumpIfNil
            · exact (((e1.emitOp .dup).emitJump .jumpIfNil).emitOp .pop).trans
                (compileBody_extends ih (by omega) hclause.2 h2)
          split at h3
          · refine ihl (by omega) hclauses ((e2.emitJump .jump).patchJump
              ((e1.emitOp .dup).le_jumpPos .jumpIfNil)) ?_ h3
            intro pos hpos
            rcases List.mem_append.mp hpos with hpos | hpos
            · exact hj pos hpos
            · rw [List.mem_singleton.mp hpos]
              exact e2.le_jumpPos .jump
          · cases h3
      | .nil | .true_ | .long _ | .bigint _ | .float _ | .string _ | .symbol _
      | .context _ | .primitive _ | .quote _ | .lambda _ _ | .fexpr _
      | .array _ | .dynSymbol _ _ => simp [compileClauses] at h

/-- The jumps of an `and` lie in the code of its operands. -/
theorem compileAnd_extends {c0 : Compiler} {jumps jumps' : List Nat}
    (hl : sizeOf l < n) (hP : Spelled P l) (h0 : ExtendsBy P c0 c)
    (hj : ∀ pos ∈ jumps, c0.code.length ≤ pos)
    (h : compileAnd ctx l isTail c jumps = .value (c', jumps')) :
    ExtendsBy P c0 c' ∧ ∀ pos ∈ jumps', c0.code.length ≤ pos := by
  induction l generalizing c jumps with
  | nil =>
      simp only [compileAnd, Outcome.value.injEq, Prod.mk.injEq] at h
      obtain ⟨rfl, rfl⟩ := h
      exact ⟨h0, hj⟩
  | cons arg args ihl =>
      simp only [List.cons.sizeOf_spec] at hl
      obtain ⟨harg, hargs⟩ := spelled_cons.mp hP
      cases args with
      | nil =>
          simp only [compileAnd, Outcome.bind_eq_value_iff,
            Outcome.value.injEq, Prod.mk.injEq] at h
          obtain ⟨c1, h1, rfl, rfl⟩ := h
          exact ⟨h0.trans (ih arg (by omega) harg _ _ _ h1), hj⟩
      | cons arg2 args =>
          simp only [compileAnd, Outcome.bind_eq_value_iff] at h
          obtain ⟨c1, h1, h2⟩ := h
          have e1 := h0.trans (ih arg (by omega) harg _ _ _ h1)
          split at h2
          · refine ihl (by omega) hargs (e1.emitJump .jumpIfNil) ?_ h2
            intro pos hpos
            rcases List.mem_append.mp hpos with hpos | hpos
            · exact hj pos hpos
            · rw [List.mem_singleton.mp hpos]
              exact e1.le_jumpPos .jumpIfNil
          · cases h2

/-- The jumps of an `or` lie in the code of its operands. -/
theorem compileOr_extends {c0 : Compiler} {jumps jumps' : List Nat}
    (hl : sizeOf l < n) (hP : Spelled P l) (h0 : ExtendsBy P c0 c)
    (hj : ∀ pos ∈ jumps, c0.code.length ≤ pos)
    (h : compileOr ctx l isTail c jumps = .value (c', jumps')) :
    ExtendsBy P c0 c' ∧ ∀ pos ∈ jumps', c0.code.length ≤ pos := by
  induction l generalizing c jumps with
  | nil =>
      simp only [compileOr, Outcome.value.injEq, Prod.mk.injEq] at h
      obtain ⟨rfl, rfl⟩ := h
      exact ⟨h0, hj⟩
  | cons arg args ihl =>
      simp only [List.cons.sizeOf_spec] at hl
      obtain ⟨harg, hargs⟩ := spelled_cons.mp hP
      cases args with
      | nil =>
          simp only [compileOr, Outcome.bind_eq_value_iff,
            Outcome.value.injEq, Prod.mk.injEq] at h
          obtain ⟨c1, h1, rfl, rfl⟩ := h
          exact ⟨h0.trans (ih arg (by omega) harg _ _ _ h1), hj⟩
      | cons arg2 args =>
          simp only [compileOr, Outcome.bind_eq_value_iff] at h
          obtain ⟨c1, h1, h2⟩ := h
          have e1 := (h0.trans (ih arg (by omega) harg _ _ _ h1)).emitOp .dup
          split at h2
          · refine ihl (by omega) hargs ((e1.emitJump .jumpIfNotNil).emitOp .pop) ?_ h2
            intro pos hpos
            rcases List.mem_append.mp hpos with hpos | hpos
            · exact hj pos hpos
            · rw [List.mem_singleton.mp hpos]
              exact e1.le_jumpPos .jumpIfNotNil
          · cases h2

theorem compileWhile_extends (hl : sizeOf l < n) (hP : Spelled P l)
    (h : compileWhile ctx l c = .value c') : ExtendsBy P c c' := by
  match l with
  | [] => simp [compileWhile] at h
  | cond :: body =>
      simp only [List.cons.sizeOf_spec] at hl
      obtain ⟨hcond, hbody⟩ := spelled_cons.mp hP
      simp only [compileWhile, Outcome.bind_eq_value_iff,
        Outcome.value.injEq] at h
      obtain ⟨c1, h1, c2, h2, rfl⟩ := h
      have e1 := ih cond (by omega) hcond _ _ _ h1
      have e2 := (e1.emitJump .jumpIfNil).trans
        (compileLoopBody_extends ih (by omega) hbody h2)
      exact ((e2.jumpBack _).patchJump (e1.le_jumpPos .jumpIfNil)).emitOp _

theorem compileBindings_grows (hl : sizeOf l < n) (hP : Spelled P l)
    (h : compileBindings ctx l c = .value c') : GrowsBy P c c' := by
  induction hk : l.length using Nat.strong_induction_on generalizing l c with
  | _ k ihl =>
    unfold compileBindings at h
    split at h
    · exact Outcome.value.inj h ▸ GrowsBy.refl c
    · simp only [Outcome.bind_eq_value_iff] at h
      obtain ⟨⟨slot, c1⟩, h1, c2, h2, h3⟩ := h
      simp only [List.cons.sizeOf_spec, Cell.expression.sizeOf_spec] at hl
      simp only [spelled_cons, spelled_expression] at hP
      simp only [List.length_cons] at hk
      have e2 := compileFirst_extends ih (by omega) hP.1.2 h2
      have g3 := ihl _ (by omega) (by omega) hP.2 h3 rfl
      exact ((addLocal_grows h1).trans (e2.emitStoreLocal slot).toGrows).trans g3
    · simp only [Outcome.bind_eq_value_iff, Outcome.value.injEq] at h
      obtain ⟨⟨slot, c1⟩, h1, rfl⟩ := h
      exact (addLocal_grows h1).trans
        (((ExtendsBy.refl c1).emitOp _).emitStoreLocal slot).toGrows
    · simp only [Outcome.bind_eq_value_iff] at h
      obtain ⟨⟨slot, c1⟩, h1, c2, h2, h3⟩ := h
      simp only [List.cons.sizeOf_spec] at hl
      simp only [spelled_cons] at hP
      simp only [List.length_cons] at hk
      have e2 := ih _ (by omega) hP.2.1 _ _ _ h2
      have g3 := ihl _ (by omega) (by omega) hP.2.2 h3 rfl
      exact ((addLocal_grows h1).trans (e2.emitStoreLocal slot).toGrows).trans g3
    · cases h

theorem compileLet_extends (hl : sizeOf l < n) (hP : Spelled P l)
    (h : compileLet ctx l isTail c = .value c') : ExtendsBy P c c' := by
  unfold compileLet at h
  split at h
  · simp only [Outcome.bind_eq_value_iff, Outcome.value.injEq] at h
    obtain ⟨c1, h1, c2, h2, rfl⟩ := h
    simp only [List.cons.sizeOf_spec, Cell.expression.sizeOf_spec] at hl
    simp only [spelled_cons, spelled_expression] at hP
    have g1 := compileBindings_grows ih (by omega) hP.1 h1
    have e2 := compileBody_extends ih (by omega) hP.2 h2
    exact restoreLocals_extends (g1.trans e2.toGrows)
  · cases h

theorem compileLocal_extends (hl : sizeOf l < n) (hP : Spelled P l)
    (h : compileLocal ctx l isTail c = .value c') : ExtendsBy P c c' := by
  unfold compileLocal at h
  split at h
  · simp only [Outcome.bind_eq_value_iff, Outcome.value.injEq] at h
    obtain ⟨c1, h1, c2, h2, rfl⟩ := h
    simp only [List.cons.sizeOf_spec, Cell.expression.sizeOf_spec] at hl
    have e2 := compileBody_extends ih (by omega) (spelled_cons.mp hP).2 h2
    exact restoreLocals_extends ((compileVars_grows h1).trans e2.toGrows)
  · cases h

theorem compileDotimes_extends (hl : sizeOf l < n) (hP : Spelled P l)
    (h : compileDotimes ctx l c = .value c') : ExtendsBy P c c' := by
  unfold compileDotimes at h
  split at h
  · simp only [Outcome.bind_eq_value_iff, Outcome.value.injEq] at h
    obtain ⟨⟨countSlot, c1⟩, h1, c2, h2, ⟨varSlot, c3⟩, h3, c4, h4, rfl⟩ := h
    simp only [List.cons.sizeOf_spec, Cell.expression.sizeOf_spec] at hl
    simp only [spelled_cons, spelled_expression] at hP
    have g2 := (addLocal_grows h1).trans
      ((ih _ (by omega) hP.1.2.1 _ _ _ h2).emitStoreLocal countSlot).toGrows
    have g3 := g2.trans (addLocal_grows h3)
    have e3 := ((((ExtendsBy.refl (P := P) c3).emitOp .const0).emitStoreLocal varSlot
      ).emitLoadLocal varSlot).emitLoadLocal countSlot
    have e4 := (e3.emitOp .lt).emitJump .jumpIfNil
    have e5 : ExtendsBy P c3 c4 := by
      split at h4
      · exact ((e4.emitOp _).emitOp _).trans
          (compileLoopBody_extends ih (by omega) hP.2 h4)
      · exact e4.trans (compileLoopBody_extends ih (by omega) hP.2 h4)
    have e6 := ((e5.emitLoadLocal varSlot).emitOp .add1).emitStoreLocal varSlot
    refine restoreLocals_extends (g3.trans (ExtendsBy.toGrows ?_))
    exact ((e6.jumpBack _).patchJump
      ((e3.emitOp .lt).le_jumpPos .jumpIfNil)).emitOp .nil
  · cases h

theorem compileSet_extends {isSetq : Bool} (hl : sizeOf l < n) (hP : Spelled P l)
    (h : compileSet ctx isSetq l c = .value c') : ExtendsBy P c c' := by
  induction hk : l.length using Nat.strong_induction_on generalizing l c with
  | _ k ihl =>
    unfold compileSet at h
    split at h
    · split at h
      · cases h
      next htarget =>
        simp only [Outcome.bind_eq_value_iff, Outcome.value.injEq] at h
        obtain ⟨c1, h1, rfl⟩ := h
        simp only [List.cons.sizeOf_spec] at hl
        simp only [spelled_cons] at hP
        exact (ih _ (by omega) hP.2.1 _ _ _ h1).emitAssign _ _
          (assignTarget_symbols hP.1 htarget)
    · split at h
      · cases h
      next htarget =>
        simp only [Outcome.bind_eq_value_iff] at h
        obtain ⟨c1, h1, h2⟩ := h
        simp only [List.cons.sizeOf_spec] at hl
        simp only [spelled_cons] at hP
        simp only [List.length_cons] at hk
        exact (((ih _ (by omega) hP.2.1 _ _ _ h1).emitAssign _ _
          (assignTarget_symbols hP.1 htarget)).emitOp _).trans
            (ihl _ (by omega) (by omega) hP.2.2 h2 rfl)
    · cases h

theorem compileInc_extends {op1 op : VmOpcode} (hl : sizeOf l < n) (hP : Spelled P l)
    (h : compileInc ctx op1 op l c = .value c') : ExtendsBy P c c' := by
  unfold compileInc at h
  split at h
  · cases h
  · split at h
    · cases h
    next htarget =>
      have hsym := incTarget_symbols (spelled_cons.mp hP).1 htarget
      split at h <;> simp only [Outcome.value.injEq] at h <;> subst h
      · exact (((ExtendsBy.refl c).emitLoadLocal _).emitOp _).emitAssign _ _ hsym
      · exact (((ExtendsBy.refl c).emitLoadGlobal _ hsym).emitOp _).emitAssign _ _ hsym
  · simp only [List.cons.sizeOf_spec] at hl
    simp only [spelled_cons] at hP
    split at h
    · cases h
    next htarget =>
      have hsym := incTarget_symbols hP.1 htarget
      split at h <;>
        simp only [Outcome.bind_eq_value_iff, Outcome.value.injEq] at h <;>
        obtain ⟨c1, h1, rfl⟩ := h
      · exact ((((ExtendsBy.refl c).emitLoadLocal _).trans
          (ih _ (by omega) hP.2.1 _ _ _ h1)).emitOp _).emitAssign _ _ hsym
      · exact ((((ExtendsBy.refl c).emitLoadGlobal _ hsym).trans
          (ih _ (by omega) hP.2.1 _ _ _ h1)).emitOp _).emitAssign _ _ hsym

theorem compileUnary_extends {op : VmOpcode} {arg : Cell} (harg : sizeOf arg < n)
    (hP : ∀ s ∈ arg.symbols, P s)
    (h : (do
      let c ← compileExpr ctx arg false c
      .value (c.emitOp op) : Compilation Compiler) = .value c') : ExtendsBy P c c' := by
  simp only [Outcome.bind_eq_value_iff, Outcome.value.injEq] at h
  obtain ⟨c1, h1, rfl⟩ := h
  exact (ih arg harg hP _ _ _ h1).emitOp _

theorem compilePair_extends {op : VmOpcode} {arg1 arg2 : Cell} (hl : sizeOf [arg1, arg2] < n)
    (hP : Spelled P [arg1, arg2])
    (h : (do
      let c ← compileExpr ctx arg1 false c
      let c ← compileExpr ctx arg2 false c
      .value (c.emitOp op) : Compilation Compiler) = .value c') : ExtendsBy P c c' := by
  simp only [List.cons.sizeOf_spec] at hl
  simp only [spelled_cons] at hP
  simp only [Outcome.bind_eq_value_iff, Outcome.value.injEq] at h
  obtain ⟨c1, h1, c2, h2, rfl⟩ := h
  exact ((ih _ (by omega) hP.1 _ _ _ h1).trans (ih _ (by omega) hP.2.1 _ _ _ h2)).emitOp _

theorem compileCompare_extends {op : VmOpcode} (hl : sizeOf l < n) (hP : Spelled P l)
    (h : compileCompare ctx op l c = .value c') : ExtendsBy P c c' := by
  unfold compileCompare at h
  split at h
  · exact compilePair_extends ih hl hP h
  · cases h

theorem compileOperands_extends {op : VmOpcode} (hl : sizeOf l < n) (hP : Spelled P l)
    (h : compileOperands ctx op l c = .value c') : ExtendsBy P c c' := by
  induction l generalizing c with
  | nil =>
      simp only [compileOperands, Outcome.value.injEq] at h
      exact h ▸ ExtendsBy.refl c
  | cons arg args ihl =>
      simp only [compileOperands, Outcome.bind_eq_value_iff] at h
      obtain ⟨c1, h1, h2⟩ := h
      simp only [List.cons.sizeOf_spec] at hl
      obtain ⟨harg, hargs⟩ := spelled_cons.mp hP
      exact ((ih arg (by omega) harg _ _ _ h1).emitOp _).trans (ihl (by omega) hargs h2)

/-- An operand and those after it. -/
theorem compileFold_extends {op : VmOpcode} {arg : Cell} (hl : sizeOf (arg :: l) < n)
    (hP : Spelled P (arg :: l))
    (h : (do
      let c ← compileExpr ctx arg false c
      compileOperands ctx op l c : Compilation Compiler) = .value c') : ExtendsBy P c c' := by
  simp only [List.cons.sizeOf_spec] at hl
  obtain ⟨harg, hargs⟩ := spelled_cons.mp hP
  simp only [Outcome.bind_eq_value_iff] at h
  obtain ⟨c1, h1, h2⟩ := h
  exact (ih _ (by omega) harg _ _ _ h1).trans (compileOperands_extends ih (by omega) hargs h2)

theorem compileAdd_extends (hl : sizeOf l < n) (hP : Spelled P l)
    (h : compileAdd ctx l c = .value c') : ExtendsBy P c c' := by
  unfold compileAdd at h
  split at h
  · exact Outcome.value.inj h ▸ (ExtendsBy.refl c).emitOp _
  · have hsize := hl
    have hboth := hP
    simp only [List.cons.sizeOf_spec] at hsize
    simp only [spelled_cons] at hboth
    split at h
    · exact compileUnary_extends ih (by omega) hboth.1 h
    · split at h
      · exact compileUnary_extends ih (by omega) hboth.2.1 h
      · exact compilePair_extends ih hl hP h
  · exact compileFold_extends ih hl hP h

theorem compileSubtract_extends (hl : sizeOf l < n) (hP : Spelled P l)
    (h : compileSubtract ctx l c = .value c') : ExtendsBy P c c' := by
  unfold compileSubtract at h
  split at h
  · cases h
  · simp only [List.cons.sizeOf_spec] at hl
    exact compileUnary_extends ih (by omega) (spelled_cons.mp hP).1 h
  · have hsize := hl
    simp only [List.cons.sizeOf_spec] at hsize
    split at h
    · exact compileUnary_extends ih (by omega) (spelled_cons.mp hP).1 h
    · split at h
      · exact compileUnary_extends ih (by omega) (spelled_cons.mp hP).1 h
      · exact compilePair_extends ih hl hP h
  · exact compileFold_extends ih hl hP h

theorem compileMultiply_extends (hl : sizeOf l < n) (hP : Spelled P l)
    (h : compileMultiply ctx l c = .value c') : ExtendsBy P c c' := by
  unfold compileMultiply at h
  split at h
  · exact Outcome.value.inj h ▸ (ExtendsBy.refl c).emitOp _
  · exact compileFold_extends ih hl hP h

theorem compileDivide_extends (hl : sizeOf l < n) (hP : Spelled P l)
    (h : compileDivide ctx l c = .value c') : ExtendsBy P c c' := by
  unfold compileDivide at h
  split at h
  · exact compileFold_extends ih hl hP h
  · cases h

/-- A list whose head is a symbol, given its smaller parts. -/
theorem compileForm_extends {hsym : Symbol} (hl : sizeOf l < n) (hhead : P hsym)
    (hP : Spelled P l)
    (h : compileExpr ctx (.expression (.symbol hsym :: l)) isTail c =
      .value c') : ExtendsBy P c c' := by
  cases compileForm_cases h with
  | if_ _ h => exact compileIf_extends ih hl hP h
  | when _ h => exact compileWhen_extends ih hl hP h
  | condNil _ _ h => exact h ▸ (ExtendsBy.refl c).emitOp _
  | cond _ c₁ jumps h₁ h =>
      have hclauses := compileClauses_extends ih hl hP ((ExtendsBy.refl c).emitOp .nil)
        (by simp) h₁
      exact h ▸ hclauses.1.patchJumps hclauses.2
  | andNil _ _ h => exact h ▸ (ExtendsBy.refl c).emitOp _
  | and _ c₁ jumps h₁ h =>
      have hand := compileAnd_extends ih hl hP (ExtendsBy.refl c) (by simp) h₁
      exact h ▸ hand.1.exitAnd hand.2
  | orNil _ _ h => exact h ▸ (ExtendsBy.refl c).emitOp _
  | or _ c₁ jumps h₁ h =>
      have hor := compileOr_extends ih hl hP (ExtendsBy.refl c) (by simp) h₁
      exact h ▸ hor.1.patchJumps hor.2
  | begin_ _ h => exact compileBody_extends ih hl hP h
  | while_ _ h => exact compileWhile_extends ih hl hP h
  | let_ _ h => exact compileLet_extends ih hl hP h
  | local_ _ h => exact compileLocal_extends ih hl hP h
  | dotimes _ h => exact compileDotimes_extends ih hl hP h
  | set _ _ h => exact compileSet_extends ih hl hP h
  | inc _ _ _ h => exact compileInc_extends ih hl hP h
  | compare _ _ h => exact compileCompare_extends ih hl hP h
  | add _ h => exact compileAdd_extends ih hl hP h
  | subtract _ h => exact compileSubtract_extends ih hl hP h
  | multiply _ h => exact compileMultiply_extends ih hl hP h
  | divide _ h => exact compileDivide_extends ih hl hP h
  | callSelf _ _ c₁ h₁ h => exact h ▸ (compileArgs_extends ih hl hP h₁).emitCall _ _
  | call _ _ _ c₁ h₁ h =>
      have hargs := compileArgs_extends ih hl hP h₁
      exact h ▸ (((ExtendsBy.refl c).compileSymbol ctx hsym hhead).trans hargs).emitCall _ _

/-- Any other list, given its smaller parts. -/
theorem compileCall_extends {head : Cell} (hhead : sizeOf head < n)
    (hl : sizeOf l < n) (hP : Spelled P (head :: l)) (hsym : ∀ s, head ≠ .symbol s)
    (h : compileExpr ctx (.expression (head :: l)) isTail c = .value c') :
    ExtendsBy P c c' := by
  obtain ⟨hP₁, hP₂⟩ := spelled_cons.mp hP
  rw [compileExpr] at h
  · simp only [Outcome.bind_eq_value_iff, Outcome.value.injEq] at h
    obtain ⟨c1, h1, c2, h2, rfl⟩ := h
    exact ((ih head hhead hP₁ _ _ _ h1).trans
      (compileArgs_extends ih hl hP₂ h2)).emitCall _ _
  · exact hsym

end

/-- Every compiled expression extends the state by its own symbols, whatever its size. -/
theorem smallExtends (ctx : CompileContext) (n : Nat) : SmallExtends P ctx n := by
  induction n with
  | zero => intro e he; omega
  | succ n ih =>
      intro e he hP isTail c c' h
      match e with
      | .nil | .true_ =>
          simp only [compileExpr, Outcome.value.injEq] at h
          exact h ▸ (ExtendsBy.refl c).emitOp _
      | .long val =>
          simp only [compileExpr] at h
          split at h
          · exact (Outcome.value.inj h) ▸ (ExtendsBy.refl c).emitOp _
          split at h
          · exact (Outcome.value.inj h) ▸ (ExtendsBy.refl c).emitOp _
          split at h
          · exact (Outcome.value.inj h) ▸ (ExtendsBy.refl c).emitOp _
          · exact emitConstant_extends hP h
      | .float _ | .string _ =>
          simp only [compileExpr] at h
          exact emitConstant_extends hP h
      | .quote _ =>
          simp only [compileExpr] at h
          exact emitConstant_extends (spelled_quote.mp hP) h
      | .symbol s =>
          simp only [compileExpr, Outcome.value.injEq] at h
          exact h ▸ (ExtendsBy.refl c).compileSymbol ctx s (spelled_symbol.mp hP)
      | .expression [] =>
          simp only [compileExpr, Outcome.value.injEq] at h
          exact h ▸ (ExtendsBy.refl c).emitOp _
      | .expression (head :: args) =>
          simp only [Cell.expression.sizeOf_spec, List.cons.sizeOf_spec] at he
          rw [spelled_expression] at hP
          by_cases hs : ∃ s, head = .symbol s
          · obtain ⟨s, rfl⟩ := hs
            obtain ⟨hhead, hargs⟩ := spelled_cons.mp hP
            exact compileForm_extends ih (by omega) (spelled_symbol.mp hhead) hargs h
          · exact compileCall_extends ih (by omega) (by omega) hP
              (fun s hs' => hs ⟨s, hs'⟩) h
      | .bigint _ | .context _ | .primitive _ | .lambda _ _ | .fexpr _
      | .array _ | .dynSymbol _ _ => simp [compileExpr] at h

section

variable {ctx : CompileContext} {e : Cell} {l : List Cell} {isTail : Bool}
  {c c' : Compiler}

theorem compileExpr_extends (h : compileExpr ctx e isTail c = .value c') : Extends c c' :=
  smallExtends ctx (sizeOf e + 1) e (Nat.lt_succ_self _) (fun _ _ => trivial) _ _ _ h

/-- The pools of a compiled lambda mention only symbols of its contents. -/
theorem compileLambda_mentions {bc : Bytecode} (hP : Spelled P l)
    (h : compileLambda ctx l = .value bc) :
    (∀ s ∈ bc.symbols, P s) ∧ Spelled P bc.constants := by
  unfold compileLambda at h
  split at h
  · simp only [Outcome.bind_eq_value_iff, Outcome.value.injEq, Prod.exists] at h
    obtain ⟨locals, numParams, -, c, hbody, rfl⟩ := h
    have hc := (compileBody_extends (smallExtends ctx _) (Nat.lt_succ_self _)
      (spelled_cons.mp hP).2 hbody).mentions ⟨by simp, by simp⟩
    exact ⟨hc.symbols, hc.constants⟩
  · cases h

end

end NewLispNeo
