/-
The conditional forms: the code of each against its primitive.
-/
import NewLispNeo.Simulation

namespace NewLispNeo

open StepRun Compiler
open Machine (operand jumpBytes)

namespace Run

variable {R : Run} {p p' : Nat} {F T : List Val} {u v w : Val}
  {c c' : Compiler} {sc : Scope} {σ σ' : Interp} {ev : Evaluator}
  {follows : Scope → Interp → Cell → Prop}
  {leavesOf : Demand → Interp → Cell → Prop} {isTail : Bool}
  {args : List Cell}

/-- What is tested is true for the machine if it is for the tree-walker. -/
theorem truth_eq {leaves : Demand → Prop} {cell : Cell}
    (hl : ∀ d, leaves d ↔ d.Meets cell v.cell) (ht : leaves .truth) :
    isFalsy cell = isFalsy v.cell := (hl .truth).mp ht

/-- The way around a part of the code that a test has been false for. -/
theorem Branches.goes_other {c₁ c₂ c₃ : Compiler} {q r : Nat} {cell : Cell}
    {F₁ : List Val} (hb : R.Branches sc .jumpIfNil c c₁ c₂ c₃ p q r)
    (hw : w.deref R.globals = .value cell) (hcell : isFalsy cell = true) :
    R.Goes q F₁ (T ++ [w]) (r + 3) F₁ T := by
  have hg := goes_jumpIfNil (F := F₁) (T := T) hb.skip hb.near.1 hw
  rw [if_pos hcell] at hg
  rw [hb.snd_eq]
  convert hg using 1
  omega

theorem Branches.goes_way {c₁ c₂ c₃ : Compiler} {q r : Nat} {cell : Cell}
    {G : List Val} (hb : R.Branches sc .jumpIfNil c c₁ c₂ c₃ p q r)
    (hw : w.deref R.globals = .value cell) (hcell : ¬ isFalsy cell = true) :
    R.Goes q G (T ++ [w]) (q + 3) G T := by
  have hg := goes_jumpIfNil (F := G) (T := T) hb.skip hb.near.1 hw
  rwa [if_neg hcell] at hg

/-- The code of an `if`. -/
theorem if_arrives (hsmall : R.Small) (hsim : R.Simulates ev follows leavesOf)
    (hc : compileIf R.ctx.compile args isTail c = .value c')
    (hev : pIf ev σ args = .value (v, σ'))
    (hf : IfFollows ev follows leavesOf sc σ args)
    (hp : R.Placed sc c c' p) (hr : R.Rel sc F σ) :
    R.Arrives sc p (p + (emitted c c').length) F T σ v σ'
      (IfLeaves ev leavesOf · σ args) := by
  obtain _ | ⟨cond, _ | ⟨thenExpr, rest⟩⟩ := args
  · simp [compileIf] at hc
  · simp [compileIf] at hc
  · simp only [compileIf, Outcome.bind_eq_value_iff, Outcome.value.injEq] at hc
    obtain ⟨c₁, hc₁, c₂, hc₂, c₃, hc₃, rfl⟩ := hc
    simp only [pIf, evaluateParam, Outcome.bind_eq_value_iff, Prod.exists,
      List.tail_cons, Outcome.value.injEq, Prod.mk.injEq] at hev
    obtain ⟨v₁, σ₁, he₁, v₂, σ₂, hloop, rfl, rfl⟩ := hev
    simp only [IfFollows, After.of_value he₁] at hf
    obtain ⟨hfc, htruth, hf⟩ := hf
    have hext₁ := compileExpr_extends hc₁
    have hext₂ := compileExpr_extends hc₂
    have hext₃ := compileFirst_ext hc₃
    obtain ⟨q, r, hb⟩ := hp.branches hsmall hext₁ hext₂ hext₃
    obtain ⟨F₁, w, cell, hg, hw, hl, hr₁, hk₁⟩ :=
      hsim T hc₁ he₁ hfc hb.test hr
    rw [← hb.fst_eq] at hg
    have hcell := truth_eq hl htruth
    have hr₁' := hr₁.pointIt v₁
    have hk₁' := hk₁.pointIt v₁
    rw [hb.end_eq]
    by_cases hfalsy : isFalsy v₁.cell = true
    · have hgo := hg.trans (hb.goes_other hw (hcell.trans hfalsy))
      rw [if_pos hfalsy] at hf
      have hleaves : ∀ d, IfLeaves ev leavesOf d σ (cond :: thenExpr :: rest) ↔
          ElseLeaves leavesOf d (σ₁.pointIt v₁) v₁ rest := by
        intro d
        simp only [IfLeaves, After.of_value he₁, if_pos hfalsy]
      obtain _ | ⟨elseExpr, _ | ⟨thenExpr', _ | ⟨_, _⟩⟩⟩ := rest
      · simp only [ifLoop, hfalsy, if_true, Outcome.value.injEq,
          Prod.mk.injEq] at hloop
        obtain ⟨rfl, rfl⟩ := hloop
        simp only [compileFirst, Outcome.value.injEq] at hc₃
        subst hc₃
        have hnil := goes_nil (F := F₁) (T := T) hb.other.op
        rw [emitted_emitOp]
        exact ((Arrives.of_goes hnil rfl hr₁' hleaves).after hgo hk₁').clearIt
      · simp only [ifLoop, hfalsy, if_true, Outcome.bind_eq_value_iff,
          Prod.exists, Outcome.value.injEq, Prod.mk.injEq] at hloop
        obtain ⟨v₃, σ₃, he₃, rfl, rfl⟩ := hloop
        have hrest := hsim T hc₃ he₃ hf hb.other hr₁'
        exact ((hrest.after hgo hk₁').congr hleaves).clearIt
      · obtain ⟨hf₃, hfalse⟩ := hf
        simp only [ifLoop, hfalsy, if_true, Outcome.bind_eq_value_iff,
          Prod.exists] at hloop
        obtain ⟨v₃, σ₃, he₃, hloop⟩ := hloop
        rw [if_pos ((After.of_value he₃).mp hfalse)] at hloop
        simp only [Outcome.value.injEq, Prod.mk.injEq] at hloop
        obtain ⟨rfl, rfl⟩ := hloop
        have hrest := hsim T hc₃ he₃ hf₃ hb.other hr₁'
        exact ((hrest.after hgo hk₁').congr hleaves).clearIt
      · exact hf.elim
    · have hgo := hg.trans (hb.goes_way (G := F₁) (T := T) hw
        (by rwa [hcell]))
      rw [if_neg hfalsy] at hf
      have hthen : ev (σ₁.pointIt v₁) thenExpr = .value (v₂, σ₂) := by
        cases rest <;> simpa [ifLoop, hfalsy] using hloop
      have hway := hsim T hc₂ hthen hf hb.way hr₁'
      rw [← hb.snd_eq] at hway
      have hend := hway.andThen fun F' T' =>
        goes_jump (F := F') (T := T') hb.leave hb.near.2
      refine ((hend.after hgo hk₁').congr fun d => ?_).clearIt
      simp only [IfLeaves, After.of_value he₁, if_neg hfalsy]

/-- The code of a `when`. -/
theorem when_arrives (hsmall : R.Small)
    (hsim : R.Simulates ev follows leavesOf)
    (hc : compileWhen R.ctx.compile args isTail c = .value c')
    (hev : pWhen ev σ args = .value (v, σ'))
    (hf : WhenFollows ev follows leavesOf sc σ args)
    (hp : R.Placed sc c c' p) (hr : R.Rel sc F σ) :
    R.Arrives sc p (p + (emitted c c').length) F T σ v σ'
      (WhenLeaves ev leavesOf · σ args) := by
  match args with
  | [] => simp [compileWhen] at hc
  | [cond] =>
      simp only [compileWhen] at hc
      simp only [pWhen, evaluateParam, Outcome.bind_eq_value_iff, Prod.exists,
        List.tail_cons, evaluateBlockFrom, ite_self, Outcome.value.injEq,
        Prod.mk.injEq] at hev
      obtain ⟨v₁, σ₁, he₁, rfl, rfl⟩ := hev
      exact hsim T hc he₁ hf hp hr
  | cond :: e :: body =>
    simp only [compileWhen, Outcome.bind_eq_value_iff,
      Outcome.value.injEq] at hc
    obtain ⟨c₁, hc₁, c₂, hc₂, rfl⟩ := hc
    simp only [pWhen, evaluateParam, Outcome.bind_eq_value_iff, Prod.exists,
      List.tail_cons] at hev
    obtain ⟨v₁, σ₁, he₁, hbody⟩ := hev
    simp only [WhenFollows, After.of_value he₁] at hf
    obtain ⟨hfc, htruth, hf⟩ := hf
    have hext₁ := compileExpr_extends hc₁
    have hext₂ := compileBody_ext hc₂
    obtain ⟨q, r, hb⟩ := hp.branches hsmall hext₁ hext₂
      ((Extends.refl _).emitOp .nil)
    obtain ⟨F₁, w, cell, hg, hw, hl, hr₁, hk₁⟩ :=
      hsim T hc₁ he₁ hfc hb.test hr
    rw [← hb.fst_eq] at hg
    have hcell := truth_eq hl htruth
    rw [hb.end_eq]
    by_cases hfalsy : isFalsy v₁.cell = true
    · have hgo := hg.trans (hb.goes_other hw (hcell.trans hfalsy))
      simp only [hfalsy, if_true, Outcome.value.injEq, Prod.mk.injEq] at hbody
      obtain ⟨rfl, rfl⟩ := hbody
      have hnil := goes_nil (F := F₁) (T := T) hb.other.op
      rw [emitted_emitOp]
      refine (Arrives.of_goes hnil rfl hr₁ fun d => ?_).after hgo hk₁
      simp only [WhenLeaves, After.of_value he₁, if_pos hfalsy,
        Val.nilCell_cell]
    · have hgo := hg.trans (hb.goes_way (G := F₁) (T := T) hw
        (by rwa [hcell]))
      rw [if_neg hfalsy] at hbody
      have hway := body_arrives (T := T) hsim hc₂ hbody (by simp)
        (hf (by simpa using hfalsy)) hb.way hr₁
      rw [← hb.snd_eq] at hway
      have hend := hway.andThen fun F' T' =>
        goes_jump (F := F') (T := T') hb.leave hb.near.2
      refine (hend.after hgo hk₁).congr fun d => ?_
      simp only [WhenLeaves, After.of_value he₁, if_neg hfalsy]

/-- The operands of an `and`: the code either leaves the value of the last one
or goes to the failure, `t` bytes after it. -/
theorem andCode_arrives {code : Nat → List UInt8} {t : Nat}
    (hsmall : R.Small) (hsim : R.Simulates ev follows leavesOf)
    (hc : AndCode R.ctx.compile isTail args c c' code)
    (hev : andLoop ev σ u args = .value (v, σ'))
    (hf : AndFollows ev follows leavesOf sc σ args)
    (hcode : R.Code p (code t)) (hlinks : R.Links c')
    (hlocals : sc.locals = c.locals)
    (hnear : p + (code t).length + t ≤ R.bytecode.code.length)
    (hr : R.Rel sc F σ) :
    R.Arrives sc p (p + (code t).length) F T σ v σ'
        (AndLeaves ev leavesOf · σ args) ∨
      ∃ F', R.Goes p F T (p + (code t).length + t) F' T ∧
        (∀ d, AndLeaves ev leavesOf d σ args ↔ d.Meets .nil v.cell) ∧
        R.Rel sc F' σ' ∧ Kept sc F σ F' σ' := by
  induction hc generalizing p F σ u with
  | last h =>
      simp only [andLoop, Outcome.bind_eq_value_iff, Prod.exists] at hev
      obtain ⟨v₁, σ₁, he, hev⟩ := hev
      have harr := hsim T h he hf ⟨hcode, hlinks, hlocals⟩ hr
      refine .inl ?_
      split at hev
      · simp only [Outcome.value.injEq, Prod.mk.injEq] at hev
        obtain ⟨rfl, rfl⟩ := hev
        exact harr.congr_val rfl
      · simp only [Outcome.value.injEq, Prod.mk.injEq] at hev
        obtain ⟨rfl, rfl⟩ := hev
        exact harr
  | @more arg args c c₁ c' code hne h hrest ih =>
      obtain ⟨e, es, rfl⟩ := List.exists_cons_of_ne_nil hne
      simp only [andLoop, Outcome.bind_eq_value_iff, Prod.exists] at hev
      obtain ⟨v₁, σ₁, he, hev⟩ := hev
      simp only [AndFollows, After.of_value he] at hf
      obtain ⟨hfe, htruth, hf⟩ := hf
      simp only [code_append, Machine.jumpBytes_length] at hcode
      obtain ⟨hcode₁, hjump, hcode₂⟩ := hcode
      simp only [List.length_append, Machine.jumpBytes_length] at hnear
      have hext₁ := emitJump_extends c₁ .jumpIfNil
      have hlinks₁ : R.Links c₁ :=
        hlinks.of_pools (hext₁.trans hrest.extends).pools
      have hlocals₁ : sc.locals = (c₁.emitJump .jumpIfNil).2.locals :=
        hlocals.trans ((compileExpr_extends h).trans hext₁).locals_eq.symm
      obtain ⟨F₁, w, cell, hg, hw, hl, hr₁, hk₁⟩ :=
        hsim T h he hfe ⟨hcode₁, hlinks₁, hlocals⟩ hr
      have hcell := truth_eq hl htruth
      have hsize := hsmall.code
      have hg₁ := hg.trans (goes_jumpIfNil (F := F₁) (T := T) hjump
        (by omega) hw)
      rw [hcell] at hg₁
      have hlen : (emitted c c₁ ++ (jumpBytes .jumpIfNil
          ((code t).length + t : Nat) ++ code t)).length =
          (emitted c c₁).length + 3 + (code t).length := by
        simp only [List.length_append, Machine.jumpBytes_length]
        omega
      rw [hlen]
      by_cases hfalsy : isFalsy v₁.cell = true
      · rw [if_pos hfalsy] at hg₁ hev
        simp only [Outcome.value.injEq, Prod.mk.injEq] at hev
        obtain ⟨rfl, rfl⟩ := hev
        refine .inr ⟨F₁, ?_, fun d => ?_, hr₁, hk₁⟩
        · convert hg₁ using 1
          omega
        · simp only [AndLeaves, After.of_value he, if_pos hfalsy,
            Val.temp_cell]
      · rw [if_neg hfalsy] at hg₁ hev
        have hleaves : ∀ d, AndLeaves ev leavesOf d σ (arg :: e :: es) ↔
            AndLeaves ev leavesOf d σ₁ (e :: es) := by
          intro d
          simp only [AndLeaves, After.of_value he, if_neg hfalsy]
        rcases ih (u := v₁) hev (hf (by simpa using hfalsy)) hcode₂ hlinks hlocals₁
          (by omega) hr₁ with harr | ⟨F', hg', hl', hr', hk'⟩
        · refine .inl (((harr.after hg₁ hk₁).congr hleaves).at ?_)
          omega
        · refine .inr ⟨F', ?_, fun d => (hleaves d).trans (hl' d), hr',
            hk₁.trans hk'⟩
          convert hg₁.trans hg' using 1
          omega

/-- The code of an `and`. -/
theorem and_arrives {jumps : List Nat} {c₁ : Compiler} (hsmall : R.Small)
    (hsim : R.Simulates ev follows leavesOf) (hargs : args ≠ [])
    (hc : compileAnd R.ctx.compile args isTail c [] = .value (c₁, jumps))
    (hev : pAnd ev σ args = .value (v, σ'))
    (hf : AndFollows ev follows leavesOf sc σ args)
    (hp : R.Placed sc c (c₁.exitAnd jumps) p) (hr : R.Rel sc F σ) :
    R.Arrives sc p (p + (emitted c (c₁.exitAnd jumps)).length) F T σ v σ'
      (AndLeaves ev leavesOf · σ args) := by
  obtain ⟨new, code, hnew, hcode, hpatch, hsingle⟩ := compileAnd_code hargs hc
  rw [List.nil_append] at hnew
  subst hnew
  have hext := hcode.extends
  by_cases hnil : jumps = []
  · -- one operand: there is no failure to go to
    obtain ⟨e, es, rfl⟩ := List.exists_cons_of_ne_nil hargs
    obtain rfl : es = [] := hsingle.mp hnil
    cases hcode with
    | more hne => exact absurd rfl hne
    | last h =>
        subst hnil
        have hexit : c₁.exitAnd [] = c₁ := rfl
        rw [hexit] at hp ⊢
        simp only [pAnd, andLoop, Outcome.bind_eq_value_iff,
          Prod.exists] at hev
        obtain ⟨v₁, σ₁, he, hev⟩ := hev
        have harr := hsim T h he hf hp hr
        split at hev
        all_goals
          simp only [Outcome.value.injEq, Prod.mk.injEq] at hev
          obtain ⟨rfl, rfl⟩ := hev
          exact harr.congr_val rfl
  · have hem : emitted c (c₁.exitAnd jumps) =
        code 3 ++ (jumpBytes .jump 1 ++ [VmOpcode.nil.toByte]) :=
      emitted_of_code_eq (exitAnd_code hpatch hext.code_eq hnil)
    have hcode' := hp.code
    have hlen := code_length_le hp.code (by rw [hem]; simp [jumpBytes])
    rw [hem] at hcode' hlen ⊢
    simp only [code_append, Machine.jumpBytes_length] at hcode'
    obtain ⟨hops, hjump, hfail⟩ := hcode'
    simp only [List.length_append, Machine.jumpBytes_length,
      List.length_singleton] at hlen ⊢
    have hlinks : R.Links c₁ :=
      hp.links.of_pools (pools_exitAnd c₁ jumps)
    rcases andCode_arrives (T := T) hsmall hsim hcode hev hf hops hlinks
      hp.locals (by omega) hr with harr | ⟨F', hg, hl, hr', hk⟩
    · have hend := harr.andThen fun F' T' =>
        goes_jump (n := 1) (F := F') (T := T') hjump (by omega)
      exact hend.at (by omega)
    · have hnil' := goes_nil (F := F') (T := T) hfail
      refine ((Arrives.of_goes hnil' rfl hr' hl).after hg hk).at ?_
      omega

/-- The operands of an `or`. -/
theorem orCode_arrives {code : Nat → List UInt8}
    (hsmall : R.Small) (hsim : R.Simulates ev follows leavesOf)
    (hc : OrCode R.ctx.compile isTail args c c' code)
    (hev : orLoop ev σ u args = .value (v, σ'))
    (hf : OrFollows ev follows leavesOf sc σ args)
    (hcode : R.Code p (code 0)) (hlinks : R.Links c')
    (hlocals : sc.locals = c.locals) (hr : R.Rel sc F σ) :
    R.Arrives sc p (p + (code 0).length) F T σ v σ'
      (OrLeaves ev leavesOf · σ args) := by
  induction hc generalizing p F σ u with
  | last h =>
      simp only [orLoop, Outcome.bind_eq_value_iff, Prod.exists] at hev
      obtain ⟨v₁, σ₁, he, hev⟩ := hev
      have harr := hsim T h he hf ⟨hcode, hlinks, hlocals⟩ hr
      split at hev
      all_goals
        simp only [Outcome.value.injEq, Prod.mk.injEq] at hev
        obtain ⟨rfl, rfl⟩ := hev
        exact harr.congr_val rfl
  | @more arg args c c₁ c' code hne h hrest ih =>
      obtain ⟨e, es, rfl⟩ := List.exists_cons_of_ne_nil hne
      simp only [orLoop, Outcome.bind_eq_value_iff, Prod.exists] at hev
      obtain ⟨v₁, σ₁, he, hev⟩ := hev
      simp only [OrFollows, After.of_value he] at hf
      obtain ⟨hfe, htruth, hf⟩ := hf
      have hsize := hsmall.code
      have hlen := code_length_le hcode (by simp [jumpBytes])
      simp only [List.append_assoc, List.singleton_append, code_append] at hcode
      obtain ⟨hcode₁, hcode₂⟩ := hcode
      rw [code_cons] at hcode₂
      obtain ⟨hdup, hcode₂⟩ := hcode₂
      rw [code_append, code_cons (a := VmOpcode.pop.toByte)] at hcode₂
      obtain ⟨hjump, hpop, hcode₃⟩ := hcode₂
      simp only [List.length_append, Machine.jumpBytes_length,
        List.length_cons, List.length_nil, Nat.add_zero] at hlen hjump ⊢
      have hext₁ := ((Extends.refl c₁).emitOp .dup).emitJump .jumpIfNotNil
      have hext₂ := hext₁.emitOp .pop
      have hlinks₁ : R.Links c₁ :=
        hlinks.of_pools (hext₂.trans hrest.extends).pools
      have hlocals₁ : sc.locals = (((c₁.emitOp .dup).emitJump
          .jumpIfNotNil).2.emitOp .pop).locals :=
        hlocals.trans ((compileExpr_extends h).trans hext₂).locals_eq.symm
      obtain ⟨F₁, w, cell, hg, hw, hl, hr₁, hk₁⟩ :=
        hsim T h he hfe ⟨hcode₁, hlinks₁, hlocals⟩ hr
      have hcell := truth_eq hl htruth
      have hgd := hg.trans (goes_dup (F := F₁) (T := T) (v := w) hdup)
      have hgj := goes_jumpIfNotNil (F := F₁) (T := T ++ [w]) hjump
        (by omega) hw
      rw [List.append_assoc] at hgj
      have hg₁ := hgd.trans hgj
      rw [hcell] at hg₁
      by_cases hfalsy : isFalsy v₁.cell = true
      · rw [if_pos hfalsy] at hg₁ hev
        have hg₂ := hg₁.trans (goes_pop (F := F₁) (T := T) (v := w) hpop)
        have harr := ih (u := v₁) hev (hf hfalsy) hcode₃ hlinks hlocals₁ hr₁
        refine ((harr.after hg₂ hk₁).congr fun d => ?_).at ?_
        · simp only [OrLeaves, After.of_value he, if_pos hfalsy]
        · simp only [Machine.jumpBytes_length]
          omega
      · rw [if_neg hfalsy] at hg₁ hev
        simp only [Outcome.value.injEq, Prod.mk.injEq] at hev
        obtain ⟨rfl, rfl⟩ := hev
        refine ⟨F₁, w, cell, ?_, hw, fun d => ?_, hr₁, hk₁⟩
        · convert hg₁ using 1
          omega
        · simp only [OrLeaves, After.of_value he, if_neg hfalsy]
          exact hl d

/-- The body of a clause, above the value of its test. -/
theorem clauseBody_arrives {body : List Cell} {c₁ c₂ : Compiler} {cell : Cell}
    {σ₁ : Interp} {leaves : Demand → Prop}
    (hsim : R.Simulates ev follows leavesOf)
    (hev : (match body with
      | [] => .value (u, σ₁)
      | block => evaluateBlock ev σ₁ block : Outcome Error (Val × Interp)) =
        .value (v, σ'))
    (hc : (if body.isEmpty then .value c₁
      else compileBody R.ctx.compile body isTail (c₁.emitOp .pop) :
        Compilation Compiler) = .value c₂)
    (hf : BlockFollows ev follows sc σ₁ body)
    (hw : w.deref R.globals = .value cell)
    (hl : ∀ d, leaves d ↔ d.Meets cell u.cell)
    (hp : R.Placed sc c₁ c₂ p) (hr : R.Rel sc F σ₁) :
    ∃ F' w' cell', R.Goes p F (T ++ [w])
        (p + (emitted c₁ c₂).length) F' (T ++ [w']) ∧
      w'.deref R.globals = .value cell' ∧
      (∀ d, (if body = [] then leaves d
        else BlockLeaves ev leavesOf d σ₁ body) ↔ d.Meets cell' v.cell) ∧
      R.Rel sc F' σ' ∧ Kept sc F σ₁ F' σ' := by
  cases body with
  | nil =>
      simp only [List.isEmpty_nil, if_true, Outcome.value.injEq] at hc
      simp only [Outcome.value.injEq, Prod.mk.injEq] at hev
      obtain ⟨rfl, rfl⟩ := hev
      subst hc
      refine ⟨F, w, cell, ?_, hw, by simpa using hl, hr, Kept.refl sc F _⟩
      rw [emitted_self]
      exact Goes.refl
  | cons e es =>
      simp only [List.isEmpty_cons, Bool.false_eq_true, if_false] at hc
      have hext := compileBody_ext hc
      have hpop := (Extends.refl c₁).emitOp .pop
      have hg := goes_pop (F := F) (T := T) (v := w) (hp.fst hpop hext).op
      have hp₁ := hp.snd hpop hext
      rw [emitted_emitOp] at hp₁
      obtain ⟨F', w', cell', hg', hw', hl', hr', hk'⟩ :=
        body_arrives (T := T) hsim hc hev (by simp) hf hp₁ hr
      refine ⟨F', w', cell', ?_, hw', by simpa using hl', hr', hk'⟩
      rw [hpop.emitted_trans hext, emitted_emitOp]
      convert hg.trans hg' using 1
      simp only [List.length_append, List.length_singleton]
      omega

/-- The clauses of a `cond`, above the value of the last test.  After an empty
clause that value is not the tree-walker's, and another test has to come. -/
theorem clausesCode_arrives {code : Nat → List UInt8} {b : Bool}
    {l : Demand → Prop} {cell₀ : Cell}
    (hsmall : R.Small) (hsim : R.Simulates ev follows leavesOf)
    (hc : ClausesCode R.ctx.compile isTail args c c' code)
    (hev : conditionLoop ev σ u args = .value (v, σ'))
    (hf : ClausesFollows ev follows leavesOf sc b σ args)
    (hw : w.deref R.globals = .value cell₀)
    (hlast : (∀ d, l d ↔ d.Meets cell₀ u.cell) ∨
      ∃ clause ∈ args, isEmpty clause = false)
    (hfirst : b = false → ∀ d, l d ↔ d.Meets cell₀ .nil)
    (hcode : R.Code p (code 0)) (hlinks : R.Links c')
    (hlocals : sc.locals = c.locals) (hr : R.Rel sc F σ) :
    ∃ F' w' cell, R.Goes p F (T ++ [w]) (p + (code 0).length) F'
        (T ++ [w']) ∧
      w'.deref R.globals = .value cell ∧
      (∀ d, ClausesLeaves ev leavesOf d (l d) σ args ↔
        d.Meets cell v.cell) ∧ R.Rel sc F' σ' ∧ Kept sc F σ F' σ' := by
  induction hc generalizing p F σ u w cell₀ l b with
  | nil =>
      simp only [conditionLoop, Outcome.value.injEq, Prod.mk.injEq] at hev
      obtain ⟨rfl, rfl⟩ := hev
      rcases hlast with hlast | ⟨_, hmem, -⟩
      · exact ⟨F, w, cell₀, Goes.refl, hw, hlast, hr, Kept.refl sc F _⟩
      · cases hmem
  | @empty clauses c c' code h ih =>
      have hev' : conditionLoop ev σ Val.nilCell clauses = .value (v, σ') :=
        hev
      obtain ⟨hmore, hf'⟩ := hf
      refine ih hev' hf' hw ?_ hfirst hcode hlinks hlocals hr
      cases b with
      | true => exact .inr (hmore rfl)
      | false => exact .inl (hfirst rfl)
  | @clause test body clauses c c₁ c₂ c' code htest hbody hrest ih =>
      simp only [conditionLoop, evaluateParam, Outcome.bind_eq_value_iff,
        Prod.exists, List.tail_cons] at hev
      obtain ⟨v₁, σ₁, he, hev⟩ := hev
      simp only [ClausesFollows, After.of_value he] at hf
      obtain ⟨hft, htruth, hf⟩ := hf
      have hsize := hsmall.code
      dsimp only at hcode ⊢
      have hlen := code_length_le hcode (by simp)
      -- the pieces of the clause and where each of them stands
      rw [List.cons_append, code_cons] at hcode
      obtain ⟨hpop, hcode⟩ := hcode
      rw [List.append_assoc, code_append, List.cons_append, code_cons,
        List.append_assoc, code_append, code_append, code_append] at hcode
      obtain ⟨hcode₁, hdup, hjump, hcode₂, hleave, hcode₃⟩ := hcode
      simp only [List.length_append, Machine.jumpBytes_length,
        List.length_cons, Nat.add_zero] at hlen hleave hcode₂ hcode₃ ⊢
      have hextb := clauseBody_ext hbody
      have hext₁ := ((Extends.refl c₁).emitOp .dup).emitJump .jumpIfNil
      have hext₂ : Extends c₂ (c₂.emitJump .jump).2 := emitJump_extends _ _
      have hlinks₂ : R.Links c₂ := by
        have h := hlinks.of_pools hrest.extends.pools
        exact (h.of_pools (pools_patchJump _ _)).of_pools hext₂.pools
      have hlinks₁ : R.Links c₁ :=
        hlinks₂.of_pools (hext₁.trans hextb).pools
      have hlocals₁ : sc.locals = (failJump c₁).2.locals :=
        hlocals.trans ((((Extends.refl c).emitOp .pop).trans
          (compileExpr_extends htest)).trans hext₁).locals_eq.symm
      have hlocals₃ : sc.locals = (afterClause c₁ c₂).locals :=
        hlocals.trans (afterClause_extends htest hbody).locals_eq.symm
      have hgp := goes_pop (F := F) (T := T) (v := w) hpop
      obtain ⟨F₁, w₁, cell, hg, hw₁, hl, hr₁, hk₁⟩ :=
        hsim T htest he hft ⟨hcode₁, hlinks₁, hlocals⟩ hr
      have hcell := truth_eq hl htruth
      have hgd := goes_dup (F := F₁) (T := T) (v := w₁) hdup
      have hgj := goes_jumpIfNil (F := F₁) (T := T ++ [w₁]) hjump
        (by omega) hw₁
      rw [List.append_assoc] at hgj
      have hg₁ := ((hgp.trans hg).trans hgd).trans hgj
      rw [hcell] at hg₁
      by_cases hfalsy : isFalsy v₁.cell = true
      · rw [if_pos hfalsy] at hg₁ hev hf
        obtain ⟨F', w', cell', hg', hw', hl', hr', hk'⟩ := ih (u := v₁)
          (b := true) hev hf hw₁ (.inl hl) (by simp) hcode₃ hlinks
          hlocals₃ hr₁
        refine ⟨F', w', cell', ?_, hw', fun d => ?_, hr', hk₁.trans hk'⟩
        · refine hg₁.trans ?_
          convert hg' using 1 <;> omega
        · simp only [ClausesLeaves, After.of_value he, if_pos hfalsy]
          exact hl' d
      · rw [if_neg hfalsy] at hg₁ hev hf
        obtain ⟨F', w', cell', hg', hw', hl', hr', hk'⟩ :=
          clauseBody_arrives (T := T) hsim hev hbody hf hw₁ hl
            ⟨hcode₂, hlinks₂, hlocals₁⟩ hr₁
        have hend := goes_jump (F := F') (T := T ++ [w']) hleave (by omega)
        refine ⟨F', w', cell', ?_, hw', fun d => ?_, hr', hk₁.trans hk'⟩
        · refine hg₁.trans (hg'.trans ?_)
          convert hend using 1
          omega
        · simp only [ClausesLeaves, After.of_value he, if_neg hfalsy]
          exact hl' d

/-- The code of a `cond`. -/
theorem cond_arrives {jumps : List Nat} {c₁ : Compiler} (hsmall : R.Small)
    (hsim : R.Simulates ev follows leavesOf)
    (hc : compileClauses R.ctx.compile args isTail (c.emitOp .nil) [] =
      .value (c₁, jumps))
    (hev : pCondition ev σ args = .value (v, σ'))
    (hf : ClausesFollows ev follows leavesOf sc false σ args)
    (hp : R.Placed sc c (c₁.patchJumps jumps) p) (hr : R.Rel sc F σ) :
    R.Arrives sc p (p + (emitted c (c₁.patchJumps jumps)).length) F T σ v σ'
      (ClausesLeaves ev leavesOf · True σ args) := by
  obtain ⟨new, code, hnew, hcode, hpatch⟩ := compileClauses_code hc
  rw [List.nil_append] at hnew
  subst hnew
  have hem : emitted c (c₁.patchJumps jumps) =
      VmOpcode.nil.toByte :: code 0 := by
    apply emitted_of_code_eq
    rw [hpatch.patched_code hcode.extends.code_eq, emitOp_code,
      List.append_assoc, List.singleton_append]
  have hcode' := hp.code
  rw [hem, code_cons] at hcode'
  obtain ⟨F', w', cell, hg, hw, hl, hr', hk⟩ :=
    clausesCode_arrives (T := T) (l := fun _ => True) hsmall hsim hcode
      hev hf (w := Val.nilCell) rfl (.inl (by simp)) (by simp) hcode'.2
      (hp.links.of_pools (pools_patchJumps _ _)) hp.locals hr
  have hnil := goes_nil (F := F) (T := T) hcode'.1
  refine ⟨F', w', cell, ?_, hw, hl, hr', hk⟩
  rw [hem]
  convert hnil.trans hg using 1
  simp only [List.length_cons]
  omega

end Run

end NewLispNeo
