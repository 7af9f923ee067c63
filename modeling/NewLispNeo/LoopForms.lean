/-
The code of `while` against the tree-walker.
-/
import NewLispNeo.Assignments

namespace NewLispNeo

open StepRun Compiler
open Machine (operand jumpBytes)

namespace Run

variable {R : Run} {sc : Scope} {F F' : List Val} {σ σ' σ₁ : Interp} {p q : Nat} {v w : Val}
  {T : List Val} {c c' c₁ c₂ : Compiler} {ev : Evaluator} {cond : Cell} {body : List Cell}
  {follows : Scope → Interp → Cell → Prop} {leavesOf : Demand → Interp → Cell → Prop}

/-- A jump back over `n` bytes, its own among them. -/
theorem goes_jumpBack {n : Nat} (h : R.Code p (jumpBytes .jump (-(n : Int)))) (hn : n ≤ p + 3)
    (hsmall : n ≤ 32768) : R.Goes p F T (p + 3 - n) F T := by
  refine .of_reaches (Machine.reaches_jump h ⟨by omega, by omega, ?_⟩) ?_
  · simp only [machine]
    omega
  · have hto : (((R.machine p F T).ip + 3 : Nat) + (-(n : Int))).toNat = p + 3 - n := by
      simp only [machine]
      omega
    rw [hto]
    rfl

/-- The code of a sequence whose values are all dropped. -/
theorem loopBody_goes (hsim : R.Simulates ev follows leavesOf)
    (hc : compileLoopBody R.ctx.compile body c = .value c')
    (hev : evaluateBlockFrom ev σ w body = .value (v, σ'))
    (hf : BlockFollows ev follows sc σ body) (hp : R.Placed sc c c' p) (hr : R.Rel sc F σ) :
    ∃ F', R.Goes p F T (p + (emitted c c').length) F' T ∧ R.Rel sc F' σ' ∧
      Kept sc F σ F' σ' := by
  induction body generalizing c p F σ w with
  | nil =>
      simp only [compileLoopBody, Outcome.value.injEq] at hc
      simp only [evaluateBlockFrom, Outcome.value.injEq, Prod.mk.injEq] at hev
      obtain ⟨rfl, rfl⟩ := hev
      subst hc
      rw [emitted_self]
      exact ⟨F, Goes.refl, hr, Kept.refl sc F _⟩
  | cons e es ih =>
      simp only [evaluateBlockFrom, Outcome.bind_eq_value_iff, Prod.exists] at hev
      obtain ⟨v₁, σ₁, he, hes⟩ := hev
      simp only [compileLoopBody, Outcome.bind_eq_value_iff] at hc
      obtain ⟨c₁, hc₁, hc₂⟩ := hc
      obtain ⟨hfe, hfes⟩ := hf
      have hext₁ := compileExpr_extends hc₁
      have hext₂ := compileLoopBody_ext hc₂
      have hpop := (Extends.refl c₁).emitOp .pop
      obtain ⟨F₁, w₁, cell, hg, -, -, hr₁, hk₁⟩ := hsim T hc₁ he hfe
        (hp.fst hext₁ (hpop.trans hext₂)) hr
      have hp₁ := hp.snd hext₁ (hpop.trans hext₂)
      have hgpop := goes_pop (F := F₁) (T := T) (v := w₁) (hp₁.fst hpop hext₂).op
      have hp₂ := hp₁.snd hpop hext₂
      rw [emitted_emitOp] at hp₂
      obtain ⟨F', hg', hr', hk'⟩ := ih hc₂ hes (hfes v₁ σ₁ he) hp₂ hr₁
      refine ⟨F', ?_, hr', hk₁.trans hk'⟩
      rw [hext₁.emitted_trans (hpop.trans hext₂), hpop.emitted_trans hext₂, emitted_emitOp]
      convert (hg.trans hgpop).trans hg' using 1
      simp only [List.length_append, List.length_singleton]
      omega

theorem ne_listIdx {s : Symbol} (hs : isAnaphoric s = false) : s ≠ listIdxSymbol := by
  rintro rfl
  simp [isAnaphoric] at hs

/-- The index of a loop is no variable of the lambda. -/
theorem sameVars_stepIteratorIndex {cellIdx : Nat}
    (h : stepIteratorIndex σ cellIdx = .value σ') : SameVars σ σ' := by
  unfold stepIteratorIndex at h
  split at h
  · split at h
    · obtain rfl := Outcome.value.inj h
      intro s hs
      have hit : s ≠ itSymbol := by
        rintro rfl
        simp [isAnaphoric] at hs
      exact Interp.overwrite_contents_ne _ _ (ne_listIdx hs) hit
    · obtain rfl := Outcome.value.inj h
      exact fun _ _ => rfl
  · cases h

/-- A loop: `op` leads past `body` and the jump back to the test. -/
theorem emitted_loop {op : VmOpcode} (h₁ : Extends c c₁) (h₂ : Extends (c₁.emitJump op).2 c₂) :
    emitted c ((c₂.jumpBack c.code.length).patchJump (c₁.emitJump op).1) =
      emitted c c₁ ++ (jumpBytes op ((emitted (c₁.emitJump op).2 c₂).length + 3 : Nat) ++
        (emitted (c₁.emitJump op).2 c₂ ++ jumpBytes .jump (-((emitted c c₁).length + 3 +
          ((emitted (c₁.emitJump op).2 c₂).length + 3) : Nat)))) := by
  have hcode₂ : c₂.code = c.code ++ emitted c c₁ ++ jumpBytes op 0 ++
      emitted (c₁.emitJump op).2 c₂ := by
    rw [h₂.code_eq, emitJump_code, h₁.code_eq]
  have hback : (c₂.jumpBack c.code.length).code = c.code ++ emitted c c₁ ++ jumpBytes op 0 ++
      (emitted (c₁.emitJump op).2 c₂ ++ jumpBytes .jump (-((emitted c c₁).length + 3 +
        ((emitted (c₁.emitJump op).2 c₂).length + 3) : Nat))) := by
    rw [jumpBack_code, hcode₂]
    have hoff : ((c.code.length : Int) - ((c.code ++ emitted c c₁ ++ jumpBytes op 0 ++
        emitted (c₁.emitJump op).2 c₂).length + 3)) = -((emitted c c₁).length + 3 +
          ((emitted (c₁.emitJump op).2 c₂).length + 3) : Nat) := by
      simp only [List.length_append, Machine.jumpBytes_length]
      omega
    rw [hoff]
    simp only [List.append_assoc]
  apply emitted_of_code_eq
  rw [patchJump_code hback (by rw [emitJump_fst, h₁.code_eq])]
  simp only [List.length_append, Machine.jumpBytes_length, List.append_assoc]

theorem while_extends (hc₁ : compileExpr R.ctx.compile cond false c = .value c₁)
    (hc₂ : compileLoopBody R.ctx.compile body (c₁.emitJump .jumpIfNil).2 = .value c₂) :
    Extends c ((c₂.jumpBack c.code.length).patchJump (c₁.emitJump .jumpIfNil).1) := by
  have hext₁ := compileExpr_extends hc₁
  have hloop := (hext₁.emitJump .jumpIfNil).trans (compileLoopBody_ext hc₂)
  exact (hloop.jumpBack c.code.length).patchJump (hext₁.le_jumpPos .jumpIfNil)

/-- The rounds of a `while`, from the test on. -/
theorem rounds_go {cellIdx : Nat} (hsmall : R.Small) (hsim : R.Simulates ev follows leavesOf)
    (hc₁ : compileExpr R.ctx.compile cond false c = .value c₁)
    (hc₂ : compileLoopBody R.ctx.compile body (c₁.emitJump .jumpIfNil).2 = .value c₂)
    (hp : R.Placed sc c ((c₂.jumpBack c.code.length).patchJump (c₁.emitJump .jumpIfNil).1) p)
    (fuel : Nat) {result : Val}
    (hev : repeatLoop ev cellIdx [cond] body fuel σ result = .value (v, σ'))
    (hf : RoundsFollow ev follows leavesOf sc cellIdx cond body fuel σ) (hr : R.Rel sc F σ) :
    ∃ F', R.Goes p F T (p + (emitted c ((c₂.jumpBack c.code.length).patchJump
        (c₁.emitJump .jumpIfNil).1)).length) F' T ∧ R.Rel sc F' σ' ∧ Kept sc F σ F' σ' := by
  have hext₁ := compileExpr_extends hc₁
  have hext₂ := compileLoopBody_ext hc₂
  have hcode := hp.code
  have hlinks₂ : R.Links c₂ := by
    have h := hp.links.of_pools (pools_patchJump _ _)
    exact h.of_pools ((Extends.refl c₂).jumpBack c.code.length).pools
  have hjump := emitJump_extends c₁ .jumpIfNil
  have hlinks₁ : R.Links c₁ := hlinks₂.of_pools (hjump.trans hext₂).pools
  have hlen := code_length_le hp.code (by rw [emitted_loop hext₁ hext₂]; simp [jumpBytes])
  have hsize := hsmall.code
  rw [emitted_loop hext₁ hext₂] at hcode hlen ⊢
  simp only [code_append, Machine.jumpBytes_length] at hcode
  obtain ⟨hcond, hskip, hbody, hback⟩ := hcode
  simp only [List.length_append, Machine.jumpBytes_length] at hlen
  induction fuel generalizing σ F result with
  | zero => cases hev
  | succ fuel ih =>
      simp only [repeatLoop, evaluateParam, Outcome.bind_eq_value_iff, Prod.exists] at hev
      obtain ⟨v₁, σ₁, hv, hev⟩ := hev
      obtain ⟨hfc, htruth, hf⟩ := hf
      have hf := hf v₁ σ₁ hv
      obtain ⟨F₁, w, cell, hg, hw, hl, hr₁, hk₁⟩ := hsim T hc₁ hv hfc
        ⟨hcond, hlinks₁, hp.locals⟩ hr
      have hcell := truth_eq hl htruth
      have hgj := goes_jumpIfNil (F := F₁) (T := T) hskip (by omega) hw
      rw [hcell] at hgj
      have hg₁ := hg.trans hgj
      by_cases hfalsy : isFalsy v₁.cell = true
      · rw [if_pos hfalsy] at hg₁ hev
        simp only [Outcome.value.injEq, Prod.mk.injEq] at hev
        obtain ⟨rfl, rfl⟩ := hev
        refine ⟨F₁, ?_, hr₁, hk₁⟩
        convert hg₁ using 1
        simp only [List.length_append, Machine.jumpBytes_length]
        omega
      · rw [if_neg hfalsy] at hg₁ hev
        simp only [Outcome.bind_eq_value_iff, Prod.exists] at hev
        obtain ⟨v₂, σ₂, hblock, σ₃, hstep, hev⟩ := hev
        obtain ⟨hfb, hf⟩ := hf (by simpa using hfalsy)
        obtain ⟨F₂, hg₂, hr₂, hk₂⟩ := loopBody_goes (T := T) hsim hc₂ hblock hfb
          ⟨hbody, hlinks₂, hp.locals.trans (hext₁.trans hjump).locals_eq.symm⟩ hr₁
        have hsame := sameVars_stepIteratorIndex hstep
        have hg₃ := goes_jumpBack (F := F₂) (T := T) hback (by omega) (by omega)
        obtain ⟨F', hg', hr', hk'⟩ := ih hev (hf v₂ σ₂ hblock σ₃ hstep) (hr₂.congr hsame)
        refine ⟨F', ?_, hr', ((hk₁.trans hk₂).congr hsame).trans hk'⟩
        have hround := (hg₁.trans hg₂).trans hg₃
        have hstart : p + (emitted c c₁).length + 3 +
            (emitted (c₁.emitJump .jumpIfNil).2 c₂).length + 3 -
            ((emitted c c₁).length + 3 +
              ((emitted (c₁.emitJump .jumpIfNil).2 c₂).length + 3)) = p := by omega
        rw [hstart] at hround
        exact hround.trans hg'

/-- The code of a `while`, which leaves `nil`. -/
theorem while_arrives {args : List Cell} {fuel : Nat} {leaves : Demand → Prop}
    (hsmall : R.Small) (hsim : R.Simulates ev follows leavesOf)
    (hc : compileWhile R.ctx.compile args c = .value c')
    (hev : pWhile ev fuel σ args = .value (v, σ'))
    (hf : WhileFollows ev follows leavesOf sc fuel σ args) (hp : R.Placed sc c c' p)
    (hr : R.Rel sc F σ) (hl : ∀ d, leaves d ↔ d.Meets .nil v.cell) :
    R.Arrives sc p (p + (emitted c c').length) F T σ v σ' leaves := by
  cases args with
  | nil => simp [compileWhile] at hc
  | cons cond body =>
      simp only [compileWhile, Outcome.bind_eq_value_iff, Outcome.value.injEq] at hc
      obtain ⟨c₁, hc₁, c₂, hc₂, rfl⟩ := hc
      simp only [pWhile, List.take_succ_cons, List.take_zero, List.tail_cons,
        Outcome.bind_eq_value_iff, Prod.exists, Outcome.value.injEq, Prod.mk.injEq] at hev
      obtain ⟨result, σ₂, hloop, cell, hcell, rfl, rfl⟩ := hev
      have hsame₁ : SameVars σ (σ.bindNew listIdxSymbol (.long 0)) := fun s hs =>
        Interp.bindNew_contents_ne _ _ (ne_listIdx hs)
      have hsame₂ : SameVars σ₂ (σ₂.setBind listIdxSymbol (σ.bind listIdxSymbol)) := fun s hs =>
        Interp.setBind_contents_ne _ _ (ne_listIdx hs)
      have hext := while_extends hc₁ hc₂
      have hnil := (Extends.refl ((c₂.jumpBack c.code.length).patchJump
        (c₁.emitJump .jumpIfNil).1)).emitOp .nil
      obtain ⟨F', hg, hr', hk⟩ := rounds_go (T := T) hsmall hsim hc₁ hc₂ (hp.fst hext hnil) fuel
        hloop hf (hr.congr hsame₁)
      have hg' := goes_nil (F := F') (T := T) (hp.snd hext hnil).op
      refine ⟨F', Val.nilCell, .nil, ?_, rfl, hl, hr'.congr hsame₂,
        (((Kept.refl sc F σ).congr hsame₁).trans hk).congr hsame₂⟩
      rw [hext.emitted_trans hnil, List.length_append, ← Nat.add_assoc, emitted_emitOp]
      exact hg.trans hg'

end Run

end NewLispNeo
