/-
The code of `set` and `setq` against the tree-walker, where the variables have slots.
-/
import NewLispNeo.LetCode

namespace NewLispNeo

open StepRun Compiler
open Machine (operand jumpBytes loadLocalBytes storeLocalBytes)

namespace Run

variable {R : Run} {sc : Scope} {F F' : List Val} {σ σ' σ₁ τ : Interp} {s : Symbol}
  {k p q : Nat} {v w : Val} {T : List Val} {c c' : Compiler} {ev : Evaluator}
  {follows : Scope → Interp → Cell → Prop} {leavesOf : Demand → Interp → Cell → Prop}

/-- A variable gets the same value in its slot and in the tree-walker. -/
theorem Rel.assign {cell : Cell} (h : R.Rel sc F σ) (hhid : s ∉ sc.hidden)
    (hslot : sc.slot s = some k) (hw : w.deref R.globals = .value cell)
    (hself : τ.contents s = cell)
    (hother : ∀ t, t ≠ s → isAnaphoric t = false → τ.contents t = σ.contents t) :
    R.Rel sc (F.set k w) τ ∧ Kept sc F σ (F.set k w) τ := by
  obtain ⟨old, hold, -⟩ := h.slot s k hhid hslot
  have hlt := (List.getElem?_eq_some_iff.mp hold).1
  refine ⟨⟨by simpa using h.size, h.few, h.plain, fun t j ht hj => ?_, fun t ht hj hspec => ?_⟩,
    ⟨by simp, fun j hj => ?_, fun t ht hplain => ?_⟩⟩
  · by_cases hts : t = s
    · subst hts
      obtain rfl : k = j := Option.some.inj (hslot.symm.trans hj)
      exact ⟨w, by simp [hlt], by rw [hw, hself]⟩
    · have hne : k ≠ j := fun heq => hts (Scope.slot_injective hj (heq ▸ hslot))
      rw [List.getElem?_set_ne hne, hother t hts (h.plain t (by simp [hj]))]
      exact h.slot t j ht hj
  · have hts : t ≠ s := by
      rintro rfl
      rw [hslot] at hj
      cases hj
    rw [hother t hts (by simpa using fun h' => hspec (.inl h'))]
    exact h.global t ht hj hspec
  · have hne : k ≠ j := by
      rintro rfl
      exact hj.2 s hhid hslot
    rw [List.getElem?_set_ne hne]
  · exact hother t (fun hts => hhid (hts ▸ ht)) hplain

theorem emitted_assign (c : Compiler) (k : Nat) (s : Symbol) :
    emitted c (c.emitAssign (some k) s) = VmOpcode.dup.toByte :: storeLocalBytes k := by
  apply emitted_of_code_eq
  rw [emitAssign, emitStoreLocal_code, emitOp_code]
  simp

/-- The value of an assignment stays behind. -/
theorem assign_arrives {leaves : Demand → Prop} (h : R.Arrives sc p q F T σ v σ₁ leaves)
    (hall : leaves .all) (hset : Settable sc s)
    (hp : R.Placed sc c (c.emitAssign (c.findLocal s) s) q)
    (hself : τ.contents s = v.cell)
    (hother : ∀ t, t ≠ s → isAnaphoric t = false → τ.contents t = σ₁.contents t) :
    R.Arrives sc p (q + (emitted c (c.emitAssign (c.findLocal s) s)).length) F T σ
      (Val.ofSymbol τ s) τ (fun _ => True) := by
  obtain ⟨F₁, w, cell, hg, hw, hl, hr, hk⟩ := h
  obtain rfl : cell = v.cell := (hl .all).mp hall
  obtain ⟨hhid, hslot⟩ := hset
  obtain ⟨k, hslot⟩ := Option.ne_none_iff_exists'.mp hslot
  have hfind : c.findLocal s = some k := by
    rw [Compiler.findLocal, ← hp.locals]
    exact hslot
  have hcode := hp.code
  rw [hfind, emitted_assign] at hcode ⊢
  obtain ⟨old, hold, -⟩ := hr.slot s k hhid hslot
  have hlt := (List.getElem?_eq_some_iff.mp hold).1
  rw [code_cons] at hcode
  have hdup := goes_dup (F := F₁) (T := T) (v := w) hcode.1
  have hstore := goes_storeLocal (F := F₁) (T := T ++ [w]) (v := w) hcode.2
    (hr.slot_lt hslot) hlt
  rw [List.append_assoc] at hstore
  obtain ⟨hr', hk'⟩ := hr.assign (F := F₁) hhid hslot hw hself hother
  refine ⟨F₁.set k w, w, v.cell, ?_, hw, fun d => ?_, hr', hk.trans hk'⟩
  · convert hg.trans (hdup.trans hstore) using 1
    simp only [List.length_cons]
    omega
  · rw [Val.ofSymbol_cell, hself]
    simp

/-- One pair of a `set` or a `setq`: the code of its value, and the assignment. -/
theorem pair_arrives {e : Cell} {c₁ : Compiler} {σ₀ : Interp}
    (hsim : R.Simulates ev follows leavesOf) (hset : Settable sc s)
    (hc : compileExpr R.ctx.compile e false c = .value c₁) (hev : ev σ₀ e = .value (v, σ₁))
    (hf : follows sc σ₀ e) (hl : leavesOf .all σ₀ e) (hsame : SameVars σ σ₀)
    (hp : R.Placed sc c (c₁.emitAssign (c.findLocal s) s) p) (hr : R.Rel sc F σ)
    (hself : τ.contents s = v.cell)
    (hother : ∀ t, t ≠ s → isAnaphoric t = false → τ.contents t = σ₁.contents t) :
    R.Arrives sc p (p + (emitted c (c₁.emitAssign (c.findLocal s) s)).length) F T σ
      (Val.ofSymbol τ s) τ (fun _ => True) := by
  have hext₁ := compileExpr_extends hc
  have hext₂ := (Extends.refl c₁).emitAssign (c.findLocal s) s trivial
  have harr := hsim T hc hev hf (hp.fst hext₁ hext₂) (hr.congr hsame)
  have hp₂ := hp.snd hext₁ hext₂
  have hfind : c.findLocal s = c₁.findLocal s := by
    rw [Compiler.findLocal, Compiler.findLocal, hext₁.locals_eq]
  rw [hext₁.emitted_trans hext₂, List.length_append, ← Nat.add_assoc]
  rw [hfind] at hp₂ ⊢
  refine assign_arrives (harr.after Goes.refl ?_) hl hset hp₂ hself hother
  exact (Kept.refl sc F σ).congr hsame

/-- The value of a pair is dropped before the next one. -/
theorem pairs_arrive {u : Val} {c₁ c₂ : Compiler} {leaves leaves' : Demand → Prop}
    (hext₁ : Extends c c₁) (hext₂ : Extends (c₁.emitOp .pop) c₂)
    (hp : R.Placed sc c c₂ p)
    (h : R.Arrives sc p (p + (emitted c c₁).length) F T σ u σ₁ leaves)
    (hrest : ∀ F', R.Placed sc (c₁.emitOp .pop) c₂ (p + (emitted c c₁).length + 1) →
      R.Rel sc F' σ₁ → R.Arrives sc (p + (emitted c c₁).length + 1)
        (p + (emitted c c₁).length + 1 + (emitted (c₁.emitOp .pop) c₂).length) F' T σ₁ v σ'
        leaves') :
    R.Arrives sc p (p + (emitted c c₂).length) F T σ v σ' leaves' := by
  obtain ⟨F₁, w, cell, hg, -, -, hr₁, hk₁⟩ := h
  have hpop := (Extends.refl c₁).emitOp .pop
  have hp₁ := hp.snd hext₁ (hpop.trans hext₂)
  have hgpop := goes_pop (F := F₁) (T := T) (v := w) (hp₁.fst hpop hext₂).op
  have hp₂ := hp₁.snd hpop hext₂
  rw [emitted_emitOp] at hp₂
  refine ((hrest F₁ hp₂ hr₁).after (hg.trans hgpop) hk₁).at ?_
  rw [hext₁.emitted_trans (hpop.trans hext₂), hpop.emitted_trans hext₂, emitted_emitOp]
  simp only [List.length_append, List.length_singleton]
  omega

theorem compileSet_ext {isSetq : Bool} {args : List Cell}
    (h : compileSet R.ctx.compile isSetq args c = .value c') : Extends c c' :=
  compileSet_extends (smallExtends R.ctx.compile (sizeOf args + 1)) (Nat.lt_succ_self _)
    spelled_true h

section Overwriting

variable (σ) in
/-- The variables are those `setq` evaluates its value with. -/
theorem overwrite_vars (v : Val) (s : Symbol) :
    (σ.clearIt.overwrite s v.cell).contents s = v.cell ∧
    ∀ t, t ≠ s → isAnaphoric t = false →
      (σ.clearIt.overwrite s v.cell).contents t = σ.contents t := by
  refine ⟨Interp.overwrite_contents_self _ _ _, fun t hts ht => ?_⟩
  have hit : t ≠ itSymbol := by
    rintro rfl
    simp [isAnaphoric] at ht
  rw [Interp.overwrite_contents_ne _ _ hts hit, Interp.clearIt_contents_ne _ hit]

end Overwriting

/-- One pair of a `setq` in the tree-walker. -/
theorem pSetf_pair {flags : SymbolFlags} {e : Cell} {next : List Cell}
    (h : pSetf ev flags σ (.symbol s :: e :: next) = .value (v, σ')) :
    ∃ w σ₁, ev (σ.pointIt (Val.ofSymbol σ s)) e = .value (w, σ₁) ∧
      (next = [] → v = Val.ofSymbol (σ₁.clearIt.overwrite s w.cell) s ∧
        σ' = σ₁.clearIt.overwrite s w.cell) ∧
      (next ≠ [] → pSetf ev flags (σ₁.clearIt.overwrite s w.cell) next = .value (v, σ')) := by
  rw [pSetf.eq_def] at h
  dsimp only at h
  split at h
  · cases h
  · split at h
    · cases h
    · split at h
      · cases h
      · simp only [Outcome.bind_eq_value_iff, Prod.exists] at h
        obtain ⟨w, σ₁, hw, held, -, h⟩ := h
        refine ⟨w, σ₁, hw, ?_, ?_⟩
        · rintro rfl
          simpa [eq_comm] using h
        · intro hne
          cases next with
          | nil => exact absurd rfl hne
          | cons e' next => exact h

/-- The code of a `set` is for quoted symbols. -/
theorem set_place {place e : Cell} (next : List Cell)
    (h : compileSet R.ctx.compile false (place :: e :: next) c = .value c') :
    ∃ s, place = .quote (.symbol s) := by
  have hne : assignTarget false place ≠ none := by
    intro hnone
    cases next <;> simp [compileSet, hnone] at h
  unfold assignTarget at hne
  split at hne
  · simp at hne
  · exact ⟨_, rfl⟩
  · exact absurd rfl hne

/-- One pair of a `set` in the tree-walker. -/
theorem pSet_pair {flags : SymbolFlags} {e : Cell} {next : List Cell}
    (hquote : ∀ {σ c v σ'}, ev σ (.quote c) = .value (v, σ') → v.cell = c ∧ σ' = σ)
    (h : pSet ev flags σ (.quote (.symbol s) :: e :: next) = .value (v, σ')) :
    ∃ w σ₁, ev σ e = .value (w, σ₁) ∧
      (next = [] → v = Val.ofSymbol (σ₁.assign s w.cell) s ∧ σ' = σ₁.assign s w.cell) ∧
      (next ≠ [] → pSet ev flags (σ₁.assign s w.cell) next = .value (v, σ')) := by
  rw [pSet.eq_def] at h
  simp only [getSymbol, evaluateParam, setDefine, Outcome.bind_eq_value_iff, Prod.exists] at h
  obtain ⟨t, σ₀, ⟨u, σ₂, hplace, hsym⟩, w', σ₁', hset, h⟩ := h
  obtain ⟨hcell, rfl⟩ := hquote hplace
  simp only [hcell, Outcome.value.injEq, Prod.mk.injEq] at hsym
  obtain ⟨rfl, rfl⟩ := hsym
  split at hset
  · cases hset
  · simp only [Outcome.bind_eq_value_iff, Prod.exists, Outcome.value.injEq,
      Prod.mk.injEq] at hset
    obtain ⟨w, σ₁, hw, rfl, rfl⟩ := hset
    refine ⟨w, σ₁, hw, ?_, ?_⟩
    · rintro rfl
      simpa [eq_comm] using h
    · intro hne
      cases next with
      | nil => exact absurd rfl hne
      | cons e' next => exact h

/-- The code of a `setq`. -/
theorem setf_arrives (hsim : R.Simulates ev follows leavesOf) :
    ∀ (args : List Cell) {c : Compiler} {p : Nat} {F : List Val} {σ : Interp},
      compileSet R.ctx.compile true args c = .value c' →
      pSetf ev R.ctx.compile.flags σ args = .value (v, σ') →
      SetfFollows ev follows leavesOf sc σ args → R.Placed sc c c' p → R.Rel sc F σ →
      R.Arrives sc p (p + (emitted c c').length) F T σ v σ' (fun _ => True)
  | [], _, _, _, _, hc, _, _, _, _ => by simp [compileSet] at hc
  | [_], _, _, _, _, hc, _, _, _, _ => by simp [compileSet] at hc
  | [place, e], c, p, F, σ, hc, hev, hf, hp, hr => by
      cases place with
      | symbol s =>
          simp only [compileSet, assignTarget, if_true, Outcome.bind_eq_value_iff,
            Outcome.value.injEq] at hc
          obtain ⟨c₁, hc₁, rfl⟩ := hc
          obtain ⟨w, σ₁, hw, hend, -⟩ := pSetf_pair hev
          obtain ⟨rfl, rfl⟩ := hend rfl
          obtain ⟨hset, hfe, hl, -⟩ := hf
          exact pair_arrives hsim hset hc₁ hw hfe hl (.pointIt σ _) hp hr
            (overwrite_vars σ₁ w s).1 (overwrite_vars σ₁ w s).2
      | _ => simp [pSetf] at hev
  | place :: e :: e' :: pair, c, p, F, σ, hc, hev, hf, hp, hr => by
      cases place with
      | symbol s =>
          simp only [compileSet, assignTarget, if_true, Outcome.bind_eq_value_iff] at hc
          obtain ⟨c₁, hc₁, hc⟩ := hc
          obtain ⟨w, σ₁, hw, -, hnext⟩ := pSetf_pair hev
          obtain ⟨hset, hfe, hl, hf⟩ := hf
          have hext := (compileExpr_extends hc₁).emitAssign (c.findLocal s) s trivial
          have hrest := ((Extends.refl _).emitOp .pop).trans (compileSet_ext hc)
          have harr := pair_arrives (T := T) hsim hset hc₁ hw hfe hl (.pointIt σ _)
            (hp.fst hext hrest) hr (overwrite_vars σ₁ w s).1 (overwrite_vars σ₁ w s).2
          exact pairs_arrive hext (compileSet_ext hc) hp harr fun F' hp' hr' =>
            setf_arrives hsim (e' :: pair) hc (hnext (by simp)) (hf w σ₁ hw) hp' hr'
      | _ => simp [pSetf] at hev

/-- The code of a `set`. -/
theorem set_arrives (hsim : R.Simulates ev follows leavesOf)
    (hquote : ∀ {σ c v σ'}, ev σ (.quote c) = .value (v, σ') → v.cell = c ∧ σ' = σ) :
    ∀ (args : List Cell) {c : Compiler} {p : Nat} {F : List Val} {σ : Interp},
      compileSet R.ctx.compile false args c = .value c' →
      pSet ev R.ctx.compile.flags σ args = .value (v, σ') →
      SetFollows ev follows leavesOf sc σ args → R.Placed sc c c' p → R.Rel sc F σ →
      R.Arrives sc p (p + (emitted c c').length) F T σ v σ' (fun _ => True)
  | [], _, _, _, _, hc, _, _, _, _ => by simp [compileSet] at hc
  | [_], _, _, _, _, hc, _, _, _, _ => by simp [compileSet] at hc
  | [place, e], c, p, F, σ, hc, hev, hf, hp, hr => by
      obtain ⟨s, rfl⟩ := set_place [] hc
      simp only [compileSet, assignTarget, Bool.false_eq_true, if_false,
        Outcome.bind_eq_value_iff, Outcome.value.injEq] at hc
      obtain ⟨c₁, hc₁, rfl⟩ := hc
      obtain ⟨w, σ₁, hw, hend, -⟩ := pSet_pair hquote hev
      obtain ⟨rfl, rfl⟩ := hend rfl
      obtain ⟨hset, hfe, hl, -⟩ := hf
      exact pair_arrives hsim hset hc₁ hw hfe hl (fun _ _ => rfl) hp hr (by simp)
        fun t ht _ => Interp.assign_contents_ne _ _ ht
  | place :: e :: e' :: pair, c, p, F, σ, hc, hev, hf, hp, hr => by
      obtain ⟨s, rfl⟩ := set_place _ hc
      simp only [compileSet, assignTarget, Bool.false_eq_true, if_false,
        Outcome.bind_eq_value_iff] at hc
      obtain ⟨c₁, hc₁, hc⟩ := hc
      obtain ⟨w, σ₁, hw, -, hnext⟩ := pSet_pair hquote hev
      obtain ⟨hset, hfe, hl, hf⟩ := hf
      have hext := (compileExpr_extends hc₁).emitAssign (c.findLocal s) s trivial
      have hrest := ((Extends.refl _).emitOp .pop).trans (compileSet_ext hc)
      have harr := pair_arrives (T := T) hsim hset hc₁ hw hfe hl (fun _ _ => rfl)
        (hp.fst hext hrest) hr (Interp.assign_contents_self _ _ _)
        fun t ht _ => Interp.assign_contents_ne _ _ ht
      exact pairs_arrive hext (compileSet_ext hc) hp harr fun F' hp' hr' =>
        set_arrives hsim hquote (e' :: pair) hc (hnext (by simp)) (hf w σ₁ hw) hp' hr'

end Run

end NewLispNeo
