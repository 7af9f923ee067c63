/-
The code of each inlined form: the pieces its parts compile to, and the jumps
between them with their offsets filled in.
-/
import NewLispNeo.CodeShape

namespace NewLispNeo

open Machine (operand jumpBytes loadLocalBytes storeLocalBytes)

namespace Compiler

/-- `c'` has the pools of `c` and at least as many slots. -/
structure Pools (c c' : Compiler) : Prop where
  constants : c.constants <+: c'.constants
  symbols : c.symbols <+: c'.symbols
  maxLocals : c.maxLocals ≤ c'.maxLocals

variable {P : Symbol → Prop} {c c₁ c₂ c' : Compiler}

theorem Pools.trans (h : Pools c c₁) (h' : Pools c₁ c₂) : Pools c c₂ :=
  ⟨h.constants.trans h'.constants, h.symbols.trans h'.symbols,
    h.maxLocals.trans h'.maxLocals⟩

theorem GrowsBy.pools (h : GrowsBy P c c') : Pools c c' :=
  ⟨h.constants, h.symbols, h.maxLocals⟩

theorem ExtendsBy.pools (h : ExtendsBy P c c') : Pools c c' := h.toGrows.pools

theorem pools_patchJump (c : Compiler) (pos : Nat) :
    Pools c (c.patchJump pos) :=
  ⟨List.prefix_rfl, List.prefix_rfl, le_rfl⟩

/-- Jumps of `code` at `jumps` led to its end. -/
def patchList (jumps : List Nat) (code : List UInt8) : List UInt8 :=
  jumps.foldl (fun code pos =>
    (code.set pos (lowByte (code.length - (pos + 2) : Int))).set (pos + 1)
      (highByte (code.length - (pos + 2) : Int))) code

theorem patchJumps_code (c : Compiler) (jumps : List Nat) :
    (c.patchJumps jumps).code = patchList jumps c.code := by
  induction jumps generalizing c with
  | nil => rfl
  | cons pos jumps ih => exact ih (c.patchJump pos)

theorem pools_patchJumps (c : Compiler) (jumps : List Nat) :
    Pools c (c.patchJumps jumps) := by
  induction jumps generalizing c with
  | nil => exact ⟨List.prefix_rfl, List.prefix_rfl, le_rfl⟩
  | cons pos jumps ih => exact (pools_patchJump c pos).trans (ih _)

theorem pools_exitAnd (c : Compiler) (jumps : List Nat) :
    Pools c (c.exitAnd jumps) := by
  unfold exitAnd
  split
  · exact ⟨List.prefix_rfl, List.prefix_rfl, le_rfl⟩
  · have h := ((Extends.refl c).emitJump .jump).pools
    have h₁ := h.trans (pools_patchJumps (c.emitJump .jump).2 jumps)
    exact (h₁.trans ((Extends.refl _).emitOp .nil).pools).trans
      (pools_patchJump _ _)

/-- Leading the jumps of `raw`, which starts at `start`, to the end of what
follows it turns `raw` into `shaped`; the argument of `shaped` is the length of
what follows. -/
structure Patchable (start : Nat) (jumps : List Nat) (raw : List UInt8)
    (shaped : Nat → List UInt8) : Prop where
  length_eq : ∀ t, (shaped t).length = raw.length
  patch_eq : ∀ pre tail, pre.length = start →
    patchList jumps (pre ++ raw ++ tail) = pre ++ shaped tail.length ++ tail

namespace Patchable

variable {start : Nat} {jumps : List Nat} {raw : List UInt8}
  {shaped : Nat → List UInt8}

theorem nil (start : Nat) (raw : List UInt8) :
    Patchable start [] raw (fun _ => raw) :=
  ⟨fun _ => rfl, fun _ _ _ => rfl⟩

theorem cons (piece : List UInt8) (op : VmOpcode)
    (h : Patchable (start + piece.length + 3) jumps raw shaped) :
    Patchable start ((start + piece.length + 1) :: jumps)
      (piece ++ jumpBytes op 0 ++ raw)
      (fun t => piece ++ (jumpBytes op ((shaped t).length + t : Nat) ++
        shaped t)) where
  length_eq t := by simp [h.length_eq]
  patch_eq pre tail hpre := by
    have hcode : ((pre ++ (piece ++ jumpBytes op 0 ++ raw) ++ tail).set
          (start + piece.length + 1)
          (lowByte (((pre ++ (piece ++ jumpBytes op 0 ++ raw) ++ tail).length :
            Int) - (start + piece.length + 1 + 2)))).set
          (start + piece.length + 1 + 1)
          (highByte (((pre ++ (piece ++ jumpBytes op 0 ++ raw) ++
            tail).length : Int) - (start + piece.length + 1 + 2))) =
        (pre ++ (piece ++ jumpBytes op (raw.length + tail.length : Nat))) ++
          raw ++ tail := by
      have hoff : ((pre ++ (piece ++ jumpBytes op 0 ++ raw) ++ tail).length :
          Int) - (start + piece.length + 1 + 2) =
          (raw.length + tail.length : Nat) := by
        simp only [List.length_append, Machine.jumpBytes_length, hpre]
        omega
      rw [hoff]
      simp only [jumpBytes, operand, List.append_assoc]
      rw [List.set_append_right _ _ (by omega),
        List.set_append_right _ _ (by omega),
        List.set_append_right _ _ (by omega),
        List.set_append_right _ _ (by omega), hpre]
      simp [show start + piece.length + 1 - start - piece.length = 1 by omega,
        show start + piece.length + 1 + 1 - start - piece.length = 2 by omega]
    have hrest := h.patch_eq
      (pre ++ (piece ++ jumpBytes op (raw.length + tail.length : Nat))) tail
      (by simp [hpre]; omega)
    simp only [patchList, List.foldl_cons]
    push_cast at hcode ⊢
    rw [hcode]
    simp only [patchList] at hrest
    push_cast at hrest
    rw [hrest, h.length_eq]
    simp

/-- Code in front of it holds no jumps. -/
theorem prepend (piece : List UInt8)
    (h : Patchable (start + piece.length) jumps raw shaped) :
    Patchable start jumps (piece ++ raw) (fun t => piece ++ shaped t) where
  length_eq t := by simp [h.length_eq]
  patch_eq pre tail hpre := by
    have hrest := h.patch_eq (pre ++ piece) tail (by simp [hpre])
    simpa only [List.append_assoc] using hrest

/-- The code once the jumps lead to its end. -/
theorem patched_code {c₁ : Compiler} {pre : List UInt8}
    (h : Patchable pre.length jumps raw shaped) (hc : c₁.code = pre ++ raw) :
    (c₁.patchJumps jumps).code = pre ++ shaped 0 := by
  rw [patchJumps_code]
  simpa [hc] using h.patch_eq pre [] rfl

end Patchable

/-- The end of an `and` that has jumps to its failure. -/
theorem exitAnd_code {raw : List UInt8} {shaped : Nat → List UInt8}
    {jumps : List Nat} {pre : List UInt8}
    (h : Patchable pre.length jumps raw shaped) (hc : c.code = pre ++ raw)
    (hne : jumps ≠ []) :
    (c.exitAnd jumps).code =
      pre ++ (shaped 3 ++ (jumpBytes .jump 1 ++ [VmOpcode.nil.toByte])) := by
  have hpatch : ((c.emitJump .jump).2.patchJumps jumps).code =
      pre ++ shaped 3 ++ jumpBytes .jump 0 := by
    rw [patchJumps_code]
    have hp := h.patch_eq pre (jumpBytes .jump 0) rfl
    rw [emitJump_code, hc]
    simpa using hp
  have hend : (((c.emitJump .jump).2.patchJumps jumps).emitOp .nil).code =
      pre ++ shaped 3 ++ jumpBytes .jump 0 ++ [VmOpcode.nil.toByte] := by
    rw [emitOp_code, hpatch]
  have hpos : (c.emitJump .jump).1 = (pre ++ shaped 3).length + 1 := by
    rw [emitJump_fst, hc]
    simp [h.length_eq]
  have hjumps : jumps.isEmpty = false := by
    cases jumps with
    | nil => exact absurd rfl hne
    | cons _ _ => rfl
  unfold exitAnd
  rw [hjumps]
  simp only [Bool.false_eq_true, if_false]
  rw [patchJump_code hend hpos]
  simp only [List.length_singleton, List.append_assoc]
  rfl

end Compiler

open Compiler

variable {ctx : CompileContext} {l args : List Cell} {e : Cell}
  {isTail : Bool} {c c₁ c₂ c' : Compiler}

theorem compileBody_ext (h : compileBody ctx l isTail c = .value c') :
    Extends c c' :=
  compileBody_extends (smallExtends ctx _) (Nat.lt_succ_self _) spelled_true h

theorem compileLoopBody_ext (h : compileLoopBody ctx l c = .value c') :
    Extends c c' :=
  compileLoopBody_extends (smallExtends ctx _) (Nat.lt_succ_self _) spelled_true h

theorem compileFirst_ext (h : compileFirst ctx l isTail c = .value c') :
    Extends c c' :=
  compileFirst_extends (smallExtends ctx _) (Nat.lt_succ_self _) spelled_true h

theorem compileBindings_ext (h : compileBindings ctx l c = .value c') :
    Grows c c' :=
  compileBindings_grows (smallExtends ctx _) (Nat.lt_succ_self _) spelled_true h

/-- Code emitted after a jump that has been led to here. -/
theorem code_after_patch {pos : Nat} {pre mid : List UInt8} {op : VmOpcode}
    {o : Int} (hcode : c.code = pre ++ jumpBytes op o ++ mid)
    (hpos : pos = pre.length + 1) (hext : Extends (c.patchJump pos) c') :
    c'.code = pre ++ jumpBytes op mid.length ++ mid ++
      emitted (c.patchJump pos) c' := by
  rw [hext.code_eq, patchJump_code hcode hpos]

/-- A jump around some code: `op` before `mid`, which another jump follows that
leads past `post`. -/
theorem emitted_branches {op : VmOpcode} {c₃ : Compiler}
    (h₁ : Extends c c₁) (h₂ : Extends (c₁.emitJump op).2 c₂)
    (h₃ : Extends ((c₂.emitJump .jump).2.patchJump (c₁.emitJump op).1) c₃) :
    emitted c (c₃.patchJump (c₂.emitJump .jump).1) =
      emitted c c₁ ++ (jumpBytes op
          ((emitted (c₁.emitJump op).2 c₂).length + 3 : Nat) ++
        (emitted (c₁.emitJump op).2 c₂ ++ (jumpBytes .jump
            (emitted ((c₂.emitJump .jump).2.patchJump (c₁.emitJump op).1)
              c₃).length ++
          emitted ((c₂.emitJump .jump).2.patchJump (c₁.emitJump op).1)
            c₃))) := by
  have hcode₂ : c₂.code = c₁.code ++ jumpBytes op 0 ++
      emitted (c₁.emitJump op).2 c₂ := by
    rw [h₂.code_eq, emitJump_code]
  have hjump : (c₂.emitJump .jump).2.code = c₁.code ++ jumpBytes op 0 ++
      (emitted (c₁.emitJump op).2 c₂ ++ jumpBytes .jump 0) := by
    rw [emitJump_code, hcode₂, List.append_assoc]
  have hcode₃ := code_after_patch hjump (emitJump_fst c₁ op) h₃
  apply emitted_of_code_eq
  have hpre : c₃.code = (c₁.code ++ jumpBytes op
        (emitted (c₁.emitJump op).2 c₂ ++ jumpBytes .jump 0).length ++
        emitted (c₁.emitJump op).2 c₂) ++ jumpBytes .jump 0 ++
      emitted ((c₂.emitJump .jump).2.patchJump (c₁.emitJump op).1) c₃ := by
    rw [hcode₃]
    simp only [List.append_assoc]
  rw [patchJump_code hpre (by
    rw [emitJump_fst, hcode₂]; simp), h₁.code_eq]
  simp only [List.length_append, Machine.jumpBytes_length, List.append_assoc]

/-- The operands of an `and`, each but the last followed by a jump to the
failure, which stands after `t` more bytes. -/
inductive AndCode (ctx : CompileContext) (isTail : Bool) :
    List Cell → Compiler → Compiler → (Nat → List UInt8) → Prop where
  | last {arg : Cell} {c c' : Compiler}
      (h : compileExpr ctx arg isTail c = .value c') :
      AndCode ctx isTail [arg] c c' (fun _ => emitted c c')
  | more {arg : Cell} {args : List Cell} {c c₁ c' : Compiler}
      {code : Nat → List UInt8} (hne : args ≠ [])
      (h : compileExpr ctx arg false c = .value c₁)
      (hrest : AndCode ctx isTail args (c₁.emitJump .jumpIfNil).2 c' code) :
      AndCode ctx isTail (arg :: args) c c' (fun t =>
        emitted c c₁ ++ (jumpBytes .jumpIfNil ((code t).length + t : Nat) ++
          code t))

theorem AndCode.extends {code : Nat → List UInt8}
    (h : AndCode ctx isTail args c c' code) : Extends c c' := by
  induction h with
  | last h => exact compileExpr_extends h
  | more _ h _ ih =>
      exact ((compileExpr_extends h).emitJump .jumpIfNil).trans ih

/-- The code of a first operand and its jump, in front of the others'. -/
theorem emitted_jump {op : VmOpcode} (h₁ : Extends c c₁)
    (h₂ : Extends (c₁.emitJump op).2 c') :
    emitted c c' =
      emitted c c₁ ++ jumpBytes op 0 ++ emitted (c₁.emitJump op).2 c' := by
  apply emitted_of_code_eq
  rw [h₂.code_eq, emitJump_code, h₁.code_eq]
  simp only [List.append_assoc]

theorem compileAnd_code {jumps jumps' : List Nat} (hargs : args ≠ [])
    (h : compileAnd ctx args isTail c jumps = .value (c', jumps')) :
    ∃ new code, jumps' = jumps ++ new ∧ AndCode ctx isTail args c c' code ∧
      Patchable c.code.length new (emitted c c') code ∧
      (new = [] ↔ args.tail = []) := by
  induction args generalizing c jumps with
  | nil => exact absurd rfl hargs
  | cons arg args ih =>
      cases args with
      | nil =>
          simp only [compileAnd, Outcome.bind_eq_value_iff,
            Outcome.value.injEq, Prod.mk.injEq] at h
          obtain ⟨c₁, h₁, rfl, rfl⟩ := h
          exact ⟨[], _, by simp, .last h₁, .nil _ _, by simp⟩
      | cons arg' args =>
          simp only [compileAnd, Outcome.bind_eq_value_iff] at h
          obtain ⟨c₁, h₁, h₂⟩ := h
          split at h₂
          · obtain ⟨new, code, rfl, hcode, hpatch, -⟩ := ih (by simp) h₂
            have hext := compileExpr_extends h₁
            refine ⟨(c₁.emitJump .jumpIfNil).1 :: new, _, by simp,
              .more (by simp) h₁ hcode, ?_, by simp⟩
            rw [emitted_jump hext hcode.extends]
            have hlen : (c₁.emitJump .jumpIfNil).2.code.length =
                c.code.length + (emitted c c₁).length + 3 := by
              rw [emitJump_code, hext.code_eq]
              simp [Nat.add_assoc]
            have hpos : (c₁.emitJump .jumpIfNil).1 =
                c.code.length + (emitted c c₁).length + 1 := by
              rw [emitJump_fst, hext.code_eq]
              simp
            rw [hlen] at hpatch
            rw [hpos]
            exact hpatch.cons _ _
          · cases h₂

/-- The operands of an `or`, each but the last kept on the stack by a jump to the
end, which stands after `t` more bytes. -/
inductive OrCode (ctx : CompileContext) (isTail : Bool) :
    List Cell → Compiler → Compiler → (Nat → List UInt8) → Prop where
  | last {arg : Cell} {c c' : Compiler}
      (h : compileExpr ctx arg isTail c = .value c') :
      OrCode ctx isTail [arg] c c' (fun _ => emitted c c')
  | more {arg : Cell} {args : List Cell} {c c₁ c' : Compiler}
      {code : Nat → List UInt8} (hne : args ≠ [])
      (h : compileExpr ctx arg false c = .value c₁)
      (hrest : OrCode ctx isTail args
        (((c₁.emitOp .dup).emitJump .jumpIfNotNil).2.emitOp .pop) c' code) :
      OrCode ctx isTail (arg :: args) c c' (fun t =>
        (emitted c c₁ ++ [VmOpcode.dup.toByte]) ++
          (jumpBytes .jumpIfNotNil
              ((VmOpcode.pop.toByte :: code t).length + t : Nat) ++
            VmOpcode.pop.toByte :: code t))

theorem OrCode.extends {code : Nat → List UInt8}
    (h : OrCode ctx isTail args c c' code) : Extends c c' := by
  induction h with
  | last h => exact compileExpr_extends h
  | more _ h _ ih =>
      exact ((((compileExpr_extends h).emitOp .dup).emitJump
        .jumpIfNotNil).emitOp .pop).trans ih

theorem compileOr_code {jumps jumps' : List Nat} (hargs : args ≠ [])
    (h : compileOr ctx args isTail c jumps = .value (c', jumps')) :
    ∃ new code, jumps' = jumps ++ new ∧ OrCode ctx isTail args c c' code ∧
      Patchable c.code.length new (emitted c c') code := by
  induction args generalizing c jumps with
  | nil => exact absurd rfl hargs
  | cons arg args ih =>
      cases args with
      | nil =>
          simp only [compileOr, Outcome.bind_eq_value_iff,
            Outcome.value.injEq, Prod.mk.injEq] at h
          obtain ⟨c₁, h₁, rfl, rfl⟩ := h
          exact ⟨[], _, by simp, .last h₁, .nil _ _⟩
      | cons arg' args =>
          simp only [compileOr, Outcome.bind_eq_value_iff] at h
          obtain ⟨c₁, h₁, h₂⟩ := h
          split at h₂
          · obtain ⟨new, code, rfl, hcode, hpatch⟩ := ih (by simp) h₂
            have hext := (compileExpr_extends h₁).emitOp .dup
            have hpop := (Extends.refl
              ((c₁.emitOp .dup).emitJump .jumpIfNotNil).2).emitOp .pop
            have hrest := hpop.trans hcode.extends
            refine ⟨((c₁.emitOp .dup).emitJump .jumpIfNotNil).1 :: new, _,
              by simp, .more (by simp) h₁ hcode, ?_⟩
            have hdup : emitted c (c₁.emitOp .dup) =
                emitted c c₁ ++ [VmOpcode.dup.toByte] := by
              apply emitted_of_code_eq
              rw [emitOp_code, (compileExpr_extends h₁).code_eq,
                List.append_assoc]
            have hraw : emitted ((c₁.emitOp .dup).emitJump .jumpIfNotNil).2
                c' = VmOpcode.pop.toByte :: emitted
                  (((c₁.emitOp .dup).emitJump .jumpIfNotNil).2.emitOp .pop)
                  c' := by
              rw [hpop.emitted_trans hcode.extends,
                emitted_of_code_eq (emitOp_code _ _)]
              rfl
            rw [emitted_jump hext hrest, hdup, hraw]
            have hlen : (((c₁.emitOp .dup).emitJump .jumpIfNotNil).2.emitOp
                .pop).code.length = c.code.length +
                  (emitted c c₁ ++ [VmOpcode.dup.toByte]).length + 3 + 1 := by
              rw [emitOp_code, emitJump_code, emitOp_code,
                (compileExpr_extends h₁).code_eq]
              simp
              omega
            have hpos : ((c₁.emitOp .dup).emitJump .jumpIfNotNil).1 =
                c.code.length +
                  (emitted c c₁ ++ [VmOpcode.dup.toByte]).length + 1 := by
              rw [emitJump_fst, emitOp_code, (compileExpr_extends h₁).code_eq]
              simp [Nat.add_assoc]
            rw [hlen] at hpatch
            rw [hpos]
            exact (hpatch.prepend [VmOpcode.pop.toByte]).cons _ _
          · cases h₂

/-- The jump of a clause whose test fails, and the state after the clause. -/
def failJump (c : Compiler) : Nat × Compiler :=
  (c.emitOp .dup).emitJump .jumpIfNil

def afterClause (c₁ c₂ : Compiler) : Compiler :=
  (c₂.emitJump .jump).2.patchJump (failJump c₁).1

/-- The clauses of a `cond`: each drops what is on the stack, keeps the value of
its test and, if that holds, jumps to the end, which stands after `t` more
bytes. -/
inductive ClausesCode (ctx : CompileContext) (isTail : Bool) :
    List Cell → Compiler → Compiler → (Nat → List UInt8) → Prop where
  | nil {c : Compiler} : ClausesCode ctx isTail [] c c (fun _ => [])
  | empty {clauses : List Cell} {c c' : Compiler} {code : Nat → List UInt8}
      (h : ClausesCode ctx isTail clauses c c' code) :
      ClausesCode ctx isTail (.expression [] :: clauses) c c' code
  | clause {test : Cell} {body clauses : List Cell} {c c₁ c₂ c' : Compiler}
      {code : Nat → List UInt8}
      (htest : compileExpr ctx test false (c.emitOp .pop) = .value c₁)
      (hbody : (if body.isEmpty then .value (failJump c₁).2
        else compileBody ctx body isTail ((failJump c₁).2.emitOp .pop) :
          Compilation Compiler) = .value c₂)
      (hrest : ClausesCode ctx isTail clauses (afterClause c₁ c₂) c' code) :
      ClausesCode ctx isTail (.expression (test :: body) :: clauses) c c'
        (fun t =>
          (VmOpcode.pop.toByte :: (emitted (c.emitOp .pop) c₁ ++
            (VmOpcode.dup.toByte :: (jumpBytes .jumpIfNil
                ((emitted (failJump c₁).2 c₂).length + 3 : Nat) ++
              emitted (failJump c₁).2 c₂)))) ++
            (jumpBytes .jump ((code t).length + t : Nat) ++ code t))

theorem clauseBody_ext {body : List Cell}
    (h : (if body.isEmpty then .value c₁
      else compileBody ctx body isTail (c₁.emitOp .pop) :
        Compilation Compiler) = .value c₂) : Extends c₁ c₂ := by
  split at h
  · obtain rfl := Outcome.value.inj h
    exact Extends.refl c₁
  · exact ((Extends.refl c₁).emitOp .pop).trans (compileBody_ext h)

/-- What a clause adds to the code. -/
theorem afterClause_code {test : Cell} {body : List Cell}
    (htest : compileExpr ctx test false (c.emitOp .pop) = .value c₁)
    (hbody : (if body.isEmpty then .value (failJump c₁).2
      else compileBody ctx body isTail ((failJump c₁).2.emitOp .pop) :
        Compilation Compiler) = .value c₂) :
    (afterClause c₁ c₂).code = c.code ++
      (VmOpcode.pop.toByte :: (emitted (c.emitOp .pop) c₁ ++
        (VmOpcode.dup.toByte :: (jumpBytes .jumpIfNil
            ((emitted (failJump c₁).2 c₂).length + 3 : Nat) ++
          emitted (failJump c₁).2 c₂)))) ++ jumpBytes .jump 0 := by
  have hb := (clauseBody_ext hbody).code_eq
  have hcode : (c₂.emitJump .jump).2.code =
      (c₁.emitOp .dup).code ++ jumpBytes .jumpIfNil 0 ++
        (emitted (failJump c₁).2 c₂ ++ jumpBytes .jump 0) := by
    rw [emitJump_code, hb, failJump, emitJump_code]
    simp only [List.append_assoc]
  have hpos : (failJump c₁).1 = (c₁.emitOp .dup).code.length + 1 := rfl
  rw [afterClause, patchJump_code hcode hpos, emitOp_code,
    (compileExpr_extends htest).code_eq, emitOp_code]
  simp only [List.append_assoc, List.cons_append, List.nil_append,
    List.length_append, Machine.jumpBytes_length]

theorem afterClause_extends {test : Cell} {body : List Cell}
    (htest : compileExpr ctx test false (c.emitOp .pop) = .value c₁)
    (hbody : (if body.isEmpty then .value (failJump c₁).2
      else compileBody ctx body isTail ((failJump c₁).2.emitOp .pop) :
        Compilation Compiler) = .value c₂) :
    Extends c (afterClause c₁ c₂) := by
  have h₁ := (((Extends.refl c).emitOp .pop).trans
    (compileExpr_extends htest)).emitOp .dup
  have h₂ := (h₁.emitJump .jumpIfNil).trans (clauseBody_ext hbody)
  exact (h₂.emitJump .jump).patchJump (h₁.le_jumpPos .jumpIfNil)

theorem ClausesCode.extends {code : Nat → List UInt8}
    (h : ClausesCode ctx isTail args c c' code) : Extends c c' := by
  induction h with
  | nil => exact Extends.refl _
  | empty _ ih => exact ih
  | clause htest hbody _ ih => exact (afterClause_extends htest hbody).trans ih

theorem compileClauses_code {jumps jumps' : List Nat}
    (h : compileClauses ctx args isTail c jumps = .value (c', jumps')) :
    ∃ new code, jumps' = jumps ++ new ∧
      ClausesCode ctx isTail args c c' code ∧
      Patchable c.code.length new (emitted c c') code := by
  induction args generalizing c jumps with
  | nil =>
      simp only [compileClauses, Outcome.value.injEq, Prod.mk.injEq] at h
      obtain ⟨rfl, rfl⟩ := h
      exact ⟨[], _, by simp, .nil, by simpa using Patchable.nil _ _⟩
  | cons clause clauses ih =>
      cases clause with
      | expression cells =>
          obtain _ | ⟨test, body⟩ := cells
          · simp only [compileClauses] at h
            obtain ⟨new, code, hnew, hcode, hpatch⟩ := ih h
            exact ⟨new, code, hnew, .empty hcode, hpatch⟩
          · simp only [compileClauses, Outcome.bind_eq_value_iff] at h
            obtain ⟨c₁, htest, c₂, hbody, h⟩ := h
            split at h
            · obtain ⟨new, code, rfl, hcode, hpatch⟩ := ih h
              have hcode : ClausesCode ctx isTail clauses (afterClause c₁ c₂) c'
                code := hcode
              have hpatch : Patchable (afterClause c₁ c₂).code.length new
                (emitted (afterClause c₁ c₂) c') code := hpatch
              have hafter := afterClause_code htest hbody
              refine ⟨(c₂.emitJump .jump).1 :: new, _, by simp,
                .clause htest hbody hcode, ?_⟩
              have hraw : emitted c c' =
                  (VmOpcode.pop.toByte :: (emitted (c.emitOp .pop) c₁ ++
                    (VmOpcode.dup.toByte :: (jumpBytes .jumpIfNil
                        ((emitted (failJump c₁).2 c₂).length + 3 : Nat) ++
                      emitted (failJump c₁).2 c₂)))) ++ jumpBytes .jump 0 ++
                    emitted (afterClause c₁ c₂) c' := by
                apply emitted_of_code_eq
                rw [hcode.extends.code_eq, hafter]
                simp only [List.append_assoc]
              have hpos : (c₂.emitJump .jump).1 = c.code.length +
                  (VmOpcode.pop.toByte :: (emitted (c.emitOp .pop) c₁ ++
                    (VmOpcode.dup.toByte :: (jumpBytes .jumpIfNil
                        ((emitted (failJump c₁).2 c₂).length + 3 : Nat) ++
                      emitted (failJump c₁).2 c₂)))).length + 1 := by
                rw [emitJump_fst, (clauseBody_ext hbody).code_eq, failJump,
                  emitJump_code, emitOp_code, (compileExpr_extends htest).code_eq,
                  emitOp_code]
                simp [Nat.add_assoc]
              have hlen : (afterClause c₁ c₂).code.length = c.code.length +
                  (VmOpcode.pop.toByte :: (emitted (c.emitOp .pop) c₁ ++
                    (VmOpcode.dup.toByte :: (jumpBytes .jumpIfNil
                        ((emitted (failJump c₁).2 c₂).length + 3 : Nat) ++
                      emitted (failJump c₁).2 c₂)))).length + 3 := by
                rw [hafter, List.length_append, List.length_append]
                rfl
              rw [hraw, hpos]
              rw [hlen] at hpatch
              exact hpatch.cons _ _
            · cases h
      | _ => simp [compileClauses] at h

end NewLispNeo
