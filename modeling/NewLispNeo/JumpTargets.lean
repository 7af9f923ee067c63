/-
Where the jumps of a compiled lambda lead: to the positions the compiler meant
them for, exactly when all the distances fit the sixteen bits of an offset.
-/
import NewLispNeo.CompileLayout
import NewLispNeo.Startup

namespace NewLispNeo

open Compiler StructuredCode Machine

section

variable (ctx : CompileContext)

/-- The offsets `compileLambda` fills in: where each stands, and the position it
was meant for, which is the end of the code at that time or a loop start. -/
def lambdaJumps : List Cell → Compilation (List (Nat × Int))
  | .expression params :: body => do
      let (locals, _) ← compileParams params false [] 0
      let c ← compileBody ctx body true
        { locals := locals, maxLocals := locals.length, code := [],
          constants := [], symbols := [], jumps := [] }
      .value c.jumps
  | _ => .error ()

end

/-- A jump whose offset stands at `pos` leads to `target`. -/
def LeadsTo (bc : Bytecode) (pos : Nat) (target : Int) : Prop :=
  ∀ m : Machine, m.bytecode = bc → m.ip = pos →
    ∃ offset m', m.int16 = .value (offset, m') ∧
      (m'.ip : Int) + offset = target

/-- Every jump is less than 32 KiB away from its target. -/
def Code.JumpsFit (code : Code) : Prop :=
  ∀ r o t, (r, Item.jump o t) ∈ code.laidOut 0 [] →
    -32768 ≤ (t : Int) - (r + 3) ∧ (t : Int) - (r + 3) < 32768

theorem compileParams_paramLocals {l : List Cell} {inLocals : Bool}
    {locals locals' : List (Option Symbol)} {n n' : Nat}
    (h : compileParams l inLocals locals n = .value (locals', n')) :
    locals' = locals ++ paramLocals l := by
  induction l generalizing inLocals locals n with
  | nil =>
      simp only [compileParams, Outcome.value.injEq, Prod.mk.injEq] at h
      simp [paramLocals, h.1]
  | cons param params ih =>
      cases param with
      | symbol s =>
          simp only [compileParams] at h
          rw [paramLocals]
          split at h
          · rename_i hcomma
            rw [if_pos hcomma]
            exact ih h
          · rename_i hcomma
            rw [if_neg hcomma]
            split at h
            · cases h
            · rw [ih h, List.append_assoc]
              rfl
      | _ => simp [compileParams] at h

section Lambda

variable {ctx : CompileContext} {contents : List Cell} {bc : Bytecode}
  {jumps : List (Nat × Int)}

/-- The bytecode of a lambda is its structured code laid out from 0 on. -/
theorem compileLambda_stands (h : compileLambda ctx contents = .value bc) :
    ∀ x ∈ (lambdaCode ctx contents).laidOut 0 [],
      ItemStands bc.code x.1 x.2 := by
  unfold compileLambda at h
  split at h
  · rename_i params body
    simp only [Outcome.bind_eq_value_iff, Prod.exists,
      Outcome.value.injEq] at h
    obtain ⟨locals, n, hparams, c, hc, rfl⟩ := h
    obtain rfl := compileParams_paramLocals hparams
    have hbody := compileBody_lays (smallLays ctx (sizeOf body + 1))
      (Nat.lt_succ_self _) hc
    have hlays := hbody.append (lays_op (o := .ret) rfl c)
    have hcode := hlays.code_eq
    rw [List.nil_append] at hcode
    apply hlays.stands _ []
    rw [hcode]
    exact CodeAt.self _
  · cases h

/-- The offsets filled in are those of the jumps of the structured code. -/
theorem mem_lambdaJumps (h : lambdaJumps ctx contents = .value jumps)
    (j : Nat × Int) :
    j ∈ jumps ↔ Meant ((lambdaCode ctx contents).laidOut 0 []) j := by
  unfold lambdaJumps at h
  split at h
  · rename_i params body
    simp only [Outcome.bind_eq_value_iff, Prod.exists,
      Outcome.value.injEq] at h
    obtain ⟨locals, n, hparams, c, hc, rfl⟩ := h
    obtain rfl := compileParams_paramLocals hparams
    have hbody := compileBody_lays (smallLays ctx (sizeOf body + 1))
      (Nat.lt_succ_self _) hc
    obtain ⟨new, hnew, hmeant⟩ :=
      (hbody.append (lays_op (o := .ret) rfl c)).jumps
    have hjumps : c.jumps = new := hnew
    rw [hjumps, hmeant [] j]
    rfl
  · cases h

theorem int16_range {m m' : Machine} {offset : Int}
    (h : m.int16 = .value (offset, m')) :
    -32768 ≤ offset ∧ offset < 32768 := by
  simp only [int16, uint16, Outcome.bind_eq_value_iff, Prod.exists,
    Outcome.value.injEq, Prod.mk.injEq] at h
  obtain ⟨n, m₁, ⟨lo, m₂, -, hi, m₃, -, rfl, -⟩, hoffset, -⟩ := h
  have hlo := lo.toNat_lt
  have hhi := hi.toNat_lt
  split at hoffset <;> omega

/-- A jump in finished bytecode leads to its target exactly when that is near
enough. -/
theorem leadsTo_iff {r t : Nat} {o : VmOpcode}
    (h : ItemStands bc.code r (.jump o t)) :
    LeadsTo bc (r + 1) t ↔
      -32768 ≤ (t : Int) - (r + 3) ∧ (t : Int) - (r + 3) < 32768 := by
  have hbefore : ∀ m : Machine, m.bytecode = bc → m.ip = r + 1 →
      m.Before (operand (t - (r + 3) : Int) ++ []) := by
    rintro m rfl hip
    simp only [ItemStands, jumpBytes, CodeAt.cons_iff] at h
    rw [Before, hip, List.append_nil]
    exact h.2
  constructor
  · intro hleads
    let m : Machine := { Machine.start bc .nil [] startup with ip := r + 1 }
    obtain ⟨offset, m', hint, htarget⟩ := hleads m rfl rfl
    have hrange := int16_range hint
    have hip : m'.ip = r + 3 := by
      simp only [int16, uint16_eq (hbefore m rfl rfl), Outcome.value_bind,
        Outcome.value.injEq, Prod.mk.injEq] at hint
      rw [← hint.2]
      rfl
    rw [hip] at htarget
    push_cast at htarget
    omega
  · rintro ⟨hlo, hhi⟩ m hbc hip
    refine ⟨_, _, int16_eq (hbefore m hbc hip) hlo hhi, ?_⟩
    rw [goTo_ip, hip]
    push_cast
    omega

/-- The jumps of a compiled lambda all decode to what the compiler meant them
for exactly when none of them spans 32 KiB: the offsets are stored by truncating
casts, and nothing rejects a longer body. -/
theorem lambdaJumps_leadTo_iff (h : compileLambda ctx contents = .value bc)
    (hjumps : lambdaJumps ctx contents = .value jumps) :
    (∀ j ∈ jumps, LeadsTo bc j.1 j.2) ↔
      (lambdaCode ctx contents).JumpsFit := by
  have hstands := compileLambda_stands h
  constructor
  · intro hleads r o t hmem
    exact (leadsTo_iff (hstands _ hmem)).mp
      (hleads _ ((mem_lambdaJumps hjumps _).mpr ⟨r, o, t, hmem, rfl⟩))
  · intro hfit j hj
    obtain ⟨r, o, t, hmem, rfl⟩ := (mem_lambdaJumps hjumps j).mp hj
    exact (leadsTo_iff (hstands _ hmem)).mpr (hfit r o t hmem)

theorem compileBody_nils (ctx : CompileContext) (n : Nat) (isTail : Bool)
    (c : Compiler) : ∃ c', compileBody ctx (List.replicate (n + 1) .nil) isTail c =
      .value c' := by
  induction n generalizing c with
  | zero => exact ⟨_, rfl⟩
  | succ n ih =>
      obtain ⟨c', hc'⟩ := ih ((c.emitOp .nil).emitOp .pop)
      exact ⟨c', hc'⟩

theorem bodyCode_nils_bytes (ctx : CompileContext) (n : Nat) (isTail : Bool)
    (locals : List (Option Symbol)) :
    (bodyCode ctx (List.replicate (n + 1) .nil) isTail locals).bytes =
      2 * n + 1 := by
  induction n with
  | zero => rfl
  | succ n ih =>
      have hcode : bodyCode ctx (List.replicate (n + 1 + 1) .nil) isTail
          locals = Code.op .nil ++ Code.op .pop ++
            bodyCode ctx (List.replicate (n + 1) .nil) isTail locals := rfl
      rw [hcode]
      have hsize : (Code.op .nil ++ Code.op .pop ++
          bodyCode ctx (List.replicate (n + 1) .nil) isTail locals).bytes =
          1 + 1 + (bodyCode ctx (List.replicate (n + 1) .nil) isTail
            locals).bytes := rfl
      omega

/-- `((if true (begin nil ... nil)))` under no parameters. -/
def longBranch (n : Nat) : List Cell :=
  [.expression [],
    .expression [.symbol (mainSymbol "if"), .true_,
      .expression (.symbol (mainSymbol "begin") ::
        List.replicate (n + 1) .nil)]]

theorem compileExpr_longBranch (ctx : CompileContext) (n : Nat)
    (c : Compiler) : ∃ c', compileExpr ctx (.expression [.symbol (mainSymbol "if"), .true_,
      .expression (.symbol (mainSymbol "begin") ::
        List.replicate (n + 1) .nil)]) true c = .value c' := by
  obtain ⟨c', hc'⟩ := compileBody_nils ctx n true
    ((c.emitOp .true_).emitJump .jumpIfNil).2
  have hbegin : compileExpr ctx (.expression (.symbol (mainSymbol "begin") ::
      List.replicate (n + 1) .nil)) true
      ((c.emitOp .true_).emitJump .jumpIfNil).2 = .value c' := by
    rw [compileExpr]
    simpa [mainSymbol] using hc'
  have hif : compileIf ctx [.true_, .expression (.symbol (mainSymbol "begin") ::
      List.replicate (n + 1) .nil)] true c = .value
        (((((c'.emitJump .jump).2.patchJump
          ((c.emitOp .true_).emitJump .jumpIfNil).1)).emitOp .nil).patchJump
            (c'.emitJump .jump).1) := by
    simp only [compileIf, Outcome.bind_eq_value_iff]
    exact ⟨_, rfl, _, hbegin, _, rfl, rfl⟩
  have hname : (mainSymbol "if").name = "if" := rfl
  rw [compileExpr, if_pos hname, hif]
  exact ⟨_, rfl⟩

theorem longBranch_compiles (ctx : CompileContext) (n : Nat) : ∃ bc jumps,
    compileLambda ctx (longBranch n) = .value bc ∧
      lambdaJumps ctx (longBranch n) = .value jumps := by
  obtain ⟨c, hc⟩ := compileExpr_longBranch ctx n
    { locals := [], maxLocals := 0, code := [], constants := [], symbols := [],
      jumps := [] }
  refine ⟨_, c.jumps, Outcome.bind_eq_value_iff.mpr ⟨([], 0), rfl,
    Outcome.bind_eq_value_iff.mpr ⟨c, hc, rfl⟩⟩,
    Outcome.bind_eq_value_iff.mpr ⟨([], 0), rfl,
      Outcome.bind_eq_value_iff.mpr ⟨c, hc, rfl⟩⟩⟩

theorem lambdaCode_longBranch (ctx : CompileContext) (n : Nat) :
    lambdaCode ctx (longBranch n) =
      Code.branch (Code.op .true_)
        (bodyCode ctx (List.replicate (n + 1) .nil) true []) (Code.op .nil) ++
        Code.op .ret := by
  have hname : (mainSymbol "if").name = "if" := rfl
  simp only [lambdaCode, longBranch, paramLocals, bodyCode]
  rw [exprCode, if_pos hname, ifCode, firstCode, exprCode, exprCode]
  simp [mainSymbol]

/-- Its first jump spans the branch and the jump after that. -/
theorem longBranch_jump (ctx : CompileContext) (n : Nat) :
    ((1 : Nat), (Item.jump .jumpIfNil (2 * n + 8) : Item Instr VmOpcode)) ∈
      (lambdaCode ctx (longBranch n)).laidOut 0 [] := by
  have hbytes := bodyCode_nils_bytes ctx n true []
  have htarget : 2 * n + 8 = 0 + (Code.op .true_ ++ .br .jumpIfNil 0 ++
      bodyCode ctx (List.replicate (n + 1) .nil) true [] ++
        .br .jump 1 : Code).bytes := by
    have hsize : (Code.op .true_ ++ .br .jumpIfNil 0 ++
      bodyCode ctx (List.replicate (n + 1) .nil) true [] ++
        .br .jump 1 : Code).bytes = 1 + 3 +
          (bodyCode ctx (List.replicate (n + 1) .nil) true []).bytes + 3 := rfl
    omega
  rw [lambdaCode_longBranch, htarget, Code.branch]
  refine mem_items_append.mpr (.inl (mem_items_append.mpr (.inl ?_)))
  refine mem_items_append.mpr (.inl (mem_items_append.mpr (.inl ?_)))
  exact mem_items_append.mpr (.inr (mem_items_br.mpr ⟨_, rfl, rfl⟩))

/-- Some bodies that the compiler accepts have a jump that leads astray. -/
theorem longBranch_jumps_astray : ∃ bc jumps,
    compileLambda startupContext (longBranch 16384) = .value bc ∧
      lambdaJumps startupContext (longBranch 16384) = .value jumps ∧
      ¬ ∀ j ∈ jumps, LeadsTo bc j.1 j.2 := by
  obtain ⟨bc, jumps, hbc, hjumps⟩ :=
    longBranch_compiles startupContext 16384
  refine ⟨bc, jumps, hbc, hjumps, fun hleads => ?_⟩
  have hjump := longBranch_jump startupContext 16384
  have hnear := (leadsTo_iff (compileLambda_stands hbc _ hjump)).mp
    (hleads _ ((mem_lambdaJumps hjumps _).mpr ⟨_, _, _, hjump, rfl⟩))
  omega

theorem shortBranch_leadTo_iff : ∃ bc jumps,
    compileLambda startupContext (longBranch 0) = .value bc ∧
      lambdaJumps startupContext (longBranch 0) = .value jumps ∧
      ((∀ j ∈ jumps, LeadsTo bc j.1 j.2) ↔
        (lambdaCode startupContext (longBranch 0)).JumpsFit) := by
  obtain ⟨bc, jumps, hbc, hjumps⟩ :=
    longBranch_compiles startupContext 0
  exact ⟨bc, jumps, hbc, hjumps, lambdaJumps_leadTo_iff hbc hjumps⟩

end Lambda

end NewLispNeo
