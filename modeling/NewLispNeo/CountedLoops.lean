/-
The code of `dotimes` against the tree-walker: the count is in a slot without a name, and
the loop variable in the one behind it.
-/
import NewLispNeo.LoopForms
import NewLispNeo.OperatorForms

namespace NewLispNeo

open StepRun Compiler
open Machine (jumpBytes loadLocalBytes storeLocalBytes)

namespace Scope

variable {sc : Scope} {s t : Symbol}

/-- The scope with a slot that no symbol is read from. -/
def unnamed (sc : Scope) : Scope := ⟨sc.locals ++ [none], sc.hidden⟩

@[simp] theorem slot_unnamed : sc.unnamed.slot t = sc.slot t := by
  rw [slot, unnamed, findLocalFrom_append]
  simp [findLocalFrom, slot]

@[simp] theorem slot_countScope : (countScope sc s).slot t = sc.slot t :=
  slot_unnamed

@[simp] theorem length_unnamed : sc.unnamed.locals.length = sc.locals.length + 1 := by
  simp [unnamed]

theorem timesScope_eq (sc : Scope) (s : Symbol) : timesScope sc s = sc.unnamed.enter [s] := by
  simp [timesScope, enter, unnamed]

end Scope

namespace Run

variable {R : Run} {sc : Scope} {F F' : List Val} {σ σ' σ₁ τ : Interp} {s : Symbol}
  {p q k : Nat} {v w : Val} {T : List Val} {c c' c₁ c₂ : Compiler} {ev : Evaluator}
  {block : List Cell} {follows : Scope → Interp → Cell → Prop}
  {leavesOf : Demand → Interp → Cell → Prop}

section Unnamed

theorem Rel.unnamed (h : R.Rel sc F σ) (hfew : sc.locals.length < NewLispNeo.maxLocals) :
    R.Rel sc.unnamed F σ := by
  refine ⟨h.size, by simpa [Nat.succ_le_iff] using hfew,
    fun t ht => h.plain t (by simpa using ht), ?_, ?_⟩
  · intro t k hhid hslot
    exact h.slot t k hhid (by simpa using hslot)
  · intro t hhid hslot
    exact h.global t hhid (by simpa using hslot)

theorem Rel.of_unnamed (h : R.Rel sc.unnamed F σ) : R.Rel sc F σ := by
  have hfew := h.few
  rw [Scope.length_unnamed] at hfew
  refine ⟨h.size, by omega, fun t ht => h.plain t (by simpa using ht), ?_, ?_⟩
  · intro t k hhid hslot
    exact h.slot t k hhid (by simpa using hslot)
  · intro t hhid hslot
    exact h.global t hhid (by simpa using hslot)

theorem Unseen.unnamed (h : Unseen sc k) : Unseen sc.unnamed k := by
  have hlt := h.1
  refine ⟨by simp; omega, fun t ht => ?_⟩
  rw [Scope.slot_unnamed]
  exact h.2 t ht

/-- The slot without a name. -/
theorem unseen_unnamed : Unseen sc.unnamed sc.locals.length := by
  refine ⟨by simp, fun t _ hslot => ?_⟩
  rw [Scope.slot_unnamed] at hslot
  exact absurd (Scope.slot_lt hslot) (Nat.lt_irrefl _)

theorem Kept.of_unnamed (h : Kept sc.unnamed F σ F' σ') : Kept sc F σ F' σ' :=
  ⟨h.length_eq, fun k hk => h.unseen k hk.unnamed, h.hidden⟩

/-- The count is evaluated where the loop variable is hidden. -/
theorem Rel.hide (h : R.Rel sc.unnamed F σ)
    (hother : ∀ t, t ≠ s → isAnaphoric t = false → τ.contents t = σ.contents t) :
    R.Rel (countScope sc s) F τ := by
  refine ⟨h.size, h.few, h.plain, fun t k hhid hslot => ?_, fun t hhid hslot hspec => ?_⟩
  · simp only [countScope, List.mem_cons, not_or] at hhid
    rw [hother t hhid.1 (h.plain t (by
      rw [Scope.slot_unnamed, ← Scope.slot_countScope (s := s), hslot]
      simp))]
    exact h.slot t k hhid.2 hslot
  · simp only [countScope, List.mem_cons, not_or] at hhid
    rw [hother t hhid.1 (by simpa using fun h' => hspec (.inl h'))]
    exact h.global t hhid.2 hslot hspec

/-- Outside, the loop variable is what it was before. -/
theorem Rel.unhide (h : R.Rel sc.unnamed F σ) (h' : R.Rel (countScope sc s) F' σ')
    (hk : Kept (countScope sc s) F σ₁ F' σ')
    (hσ₁ : ∀ t, t ≠ s → isAnaphoric t = false → σ₁.contents t = σ.contents t)
    (hself : τ.contents s = σ.contents s) (hother : ∀ t, t ≠ s → τ.contents t = σ'.contents t) :
    R.Rel sc.unnamed F' τ ∧ Kept sc.unnamed F σ F' τ := by
  have hunseen : ∀ {j}, Unseen sc.unnamed j → Unseen (countScope sc s) j := fun hj =>
    ⟨hj.1, fun t ht => hj.2 t fun hin => ht (List.mem_cons_of_mem s hin)⟩
  refine ⟨⟨h'.size, h.few, h.plain, fun t k hhid hslot => ?_, fun t hhid hslot hspec => ?_⟩,
    ⟨hk.length_eq, fun j hj => hk.unseen j (hunseen hj), fun t ht hplain => ?_⟩⟩
  · by_cases hts : t = s
    · subst hts
      have hlt := Scope.slot_lt hslot
      have hsame : F'[k]? = F[k]? := by
        refine hk.unseen k ⟨hlt, fun u hu hslot' => ?_⟩
        simp only [countScope, List.mem_cons, not_or] at hu
        exact hu.1 (Scope.slot_injective (by simpa using hslot') (by simpa using hslot))
      rw [hsame, hself]
      exact h.slot t k hhid hslot
    · rw [hother t hts]
      refine h'.slot t k ?_ hslot
      simp only [countScope, List.mem_cons, not_or]
      exact ⟨hts, hhid⟩
  · by_cases hts : t = s
    · subst hts
      rw [hself]
      exact h.global t hhid hslot hspec
    · rw [hother t hts]
      refine h'.global t ?_ hslot hspec
      simp only [countScope, List.mem_cons, not_or]
      exact ⟨hts, hhid⟩
  · by_cases hts : t = s
    · rw [hts, hself]
    · rw [hother t hts, hk.hidden t (List.mem_cons_of_mem s ht) hplain, hσ₁ t hts hplain]

end Unnamed

section Rounds

/-- The tree-walker's variables, with the loop variable as it is outside. -/
def outside (s : Symbol) (saved : Binding) (σ : Interp) : Interp := σ.setBind s saved

theorem outside_self (s : Symbol) (saved : Binding) (σ : Interp) :
    (outside s saved σ).contents s = saved.val :=
  Interp.setBind_contents_self _ _ _

theorem outside_ne {t : Symbol} (saved : Binding) (σ : Interp) (h : t ≠ s) :
    (outside s saved σ).contents t = σ.contents t :=
  Interp.setBind_contents_ne _ _ h

/-- The scope of a round, with the loop variable bound. -/
theorem Rel.enterRound {saved : Binding} {flags : SymbolFlags} {n : Word}
    (h : R.Rel sc.unnamed F (outside s saved σ)) (hprot : isProtected flags s = false)
    (hplain : isAnaphoric s = false) (hfew : sc.locals.length + 2 ≤ NewLispNeo.maxLocals)
    (hv : F[sc.locals.length + 1]? = some v) (hderef : v.deref R.globals = .value (.long n)) :
    R.Rel (timesScope sc s) F (σ.assign s (.long n)) := by
  have hbind : letBind flags (outside s saved σ) [] [(s, .long n)] =
      .value ((outside s saved σ).bindNew s (.long n), [(s, (outside s saved σ).bind s)]) := by
    simp [letBind, pushSymbol, hprot]
  have hslots : R.Slots sc.unnamed F ([(s, Cell.long n)].map Prod.snd) := by
    intro i c hi
    cases i with
    | zero =>
        simp only [List.map_cons, List.map_nil, List.getElem?_cons_zero,
          Option.some.injEq] at hi
        subst hi
        exact ⟨v, by simpa using hv, hderef⟩
    | succ i => simp at hi
  have hfew' : sc.unnamed.locals.length + [(s, Cell.long n)].length ≤ NewLispNeo.maxLocals := by
    simp only [Scope.unnamed, List.length_append, List.length_singleton]
    omega
  have hrel := h.enter hbind (by simpa using hplain) hfew' hslots
  rw [Scope.timesScope_eq]
  refine hrel.congr fun t ht => ?_
  by_cases hts : t = s
  · rw [hts, Interp.assign_contents_self, Interp.bindNew_contents_self]
  · rw [Interp.assign_contents_ne _ _ hts, Interp.bindNew_contents_ne _ _ hts,
      outside_ne _ _ hts]

/-- The scope outside of a round again. -/
theorem Rel.leaveRound {saved : Binding} {n : Word} {σ₂ : Interp}
    (h : R.Rel sc.unnamed F (outside s saved σ)) (h' : R.Rel (timesScope sc s) F' σ₂)
    (hk : Kept (timesScope sc s) F (σ.assign s (.long n)) F' σ₂) :
    R.Rel sc.unnamed F' (outside s saved σ₂) ∧
      Kept sc.unnamed F (outside s saved σ) F' (outside s saved σ₂) := by
  rw [Scope.timesScope_eq] at h' hk
  refine h.leave h' hk (fun t ht => ?_) fun t => ?_
  · have hts : t ≠ s := by simpa using ht
    rw [Interp.assign_contents_ne _ _ hts, outside_ne _ _ hts]
  · by_cases hts : t = s
    · rw [hts, if_pos (by simp), outside_self, outside_self]
    · rw [if_neg (by simpa using hts), outside_ne _ _ hts]

/-- The body of a `dotimes`; an empty one has code too. -/
theorem timesBody_goes (hsim : R.Simulates ev follows leavesOf)
    (hc : compileLoopBody R.ctx.compile block
      (if block.isEmpty then (c.emitOp .nil).emitOp .pop else c) = .value c')
    (hev : evaluateBlockFrom ev σ w block = .value (v, σ'))
    (hf : BlockFollows ev follows sc σ block) (hp : R.Placed sc c c' p) (hr : R.Rel sc F σ) :
    ∃ F', R.Goes p F T (p + (emitted c c').length) F' T ∧ R.Rel sc F' σ' ∧
      Kept sc F σ F' σ' := by
  cases block with
  | nil =>
      simp only [List.isEmpty_nil, if_true, compileLoopBody, Outcome.value.injEq] at hc
      simp only [evaluateBlockFrom, Outcome.value.injEq, Prod.mk.injEq] at hev
      obtain ⟨rfl, rfl⟩ := hev
      subst hc
      have hnil := (Extends.refl c).emitOp .nil
      have hpop := (Extends.refl (c.emitOp .nil)).emitOp .pop
      have hp₁ := hp.snd hnil hpop
      rw [emitted_emitOp] at hp₁
      refine ⟨F, ?_, hr, Kept.refl sc F _⟩
      rw [hnil.emitted_trans hpop, emitted_emitOp, emitted_emitOp]
      exact (goes_nil (hp.fst hnil hpop).op).trans (goes_pop hp₁.op)
  | cons e es => exact loopBody_goes hsim hc hev hf hp hr

theorem toInt_ofNat_of_le {n : Word} {i : Nat} (h : i ≤ n.toInt.toNat) :
    (BitVec.ofNat 64 i).toInt = i := by
  have hlt : n.toInt < 2 ^ 63 := by
    have := BitVec.toInt_lt (x := n)
    simpa using this
  rw [BitVec.toInt_ofNat', Int.bmod_eq_of_le] <;> omega

/-- The machine goes on as long as there are rounds left. -/
theorem compare_count (rt : Runtime) {n : Word} {i count : Nat}
    (h : i + count = n.toInt.toNat) :
    ∃ comp, compareCells rt (.long (BitVec.ofNat 64 i)) (.long n) = .value comp ∧
      (Machine.comparisonTest .less comp = true ↔ count ≠ 0) := by
  refine ⟨_, compareCells_long _ _ _, ?_⟩
  simp only [Machine.comparisonTest, decide_eq_true_eq]
  rw [compareWords_lt_zero_iff, toInt_ofNat_of_le (n := n) (by omega)]
  omega

/-- One round of the tree-walker: the break condition has changed nothing. -/
theorem dotimesLoop_round {cond : Option Cell} {count i : Nat} {cell : Val}
    (hev : dotimesLoop ev s cond block (count + 1) i σ cell = .value (v, σ'))
    (hf : CountsFollow ev follows sc s cond block (count + 1) i σ) :
    ∃ σ₁ w σ₂, SameVars (σ.assign s (.long (BitVec.ofNat 64 i))) σ₁ ∧
      evaluateBlock ev σ₁ block = .value (w, σ₂) ∧ BlockFollows ev follows sc σ₁ block ∧
      σ₂.contents s = .long (BitVec.ofNat 64 i) ∧
      dotimesLoop ev s cond block count (i + 1) σ₂ w = .value (v, σ') ∧
      CountsFollow ev follows sc s cond block count (i + 1) σ₂ := by
  cases cond with
  | none =>
      simp only [dotimesLoop, Outcome.bind_eq_value_iff, Prod.exists] at hev
      obtain ⟨w, σ₂, hblock, hev⟩ := hev
      obtain ⟨hfb, hf⟩ := hf
      obtain ⟨hvar, hf⟩ := hf w σ₂ hblock
      exact ⟨_, w, σ₂, fun _ _ => rfl, hblock, hfb, hvar, hev, hf⟩
  | some test =>
      simp only [dotimesLoop, Outcome.bind_eq_value_iff, Prod.exists] at hev
      obtain ⟨u, σ₁, htest, hev⟩ := hev
      obtain ⟨hnil, hsame, hfb, hf⟩ := hf u σ₁ htest
      rw [if_pos hnil] at hev
      simp only [Outcome.bind_eq_value_iff, Prod.exists] at hev
      obtain ⟨w, σ₂, hblock, hev⟩ := hev
      obtain ⟨hvar, hf⟩ := hf w σ₂ hblock
      exact ⟨σ₁, w, σ₂, fun t _ => hsame t, hblock, hfb, hvar, hev, hf⟩

theorem slot_timesScope (sc : Scope) (s : Symbol) :
    (timesScope sc s).slot s = some (sc.locals.length + 1) ∧ s ∉ (timesScope sc s).hidden := by
  rw [Scope.timesScope_eq]
  refine ⟨?_, fun hmem => ?_⟩
  · rw [Scope.slot_enter]
    simp [findLocalFrom]
  · exact (Scope.mem_hidden_enter.mp hmem).2 (by simp)

/-- The code of the test and of the step of a `dotimes` in this scope. -/
def timesTest (sc : Scope) (c : Compiler) : Compiler :=
  ((c.emitLoadLocal (sc.locals.length + 1)).emitLoadLocal sc.locals.length).emitOp .lt

def timesStep (sc : Scope) (c : Compiler) : Compiler :=
  ((c.emitLoadLocal (sc.locals.length + 1)).emitOp .add1).emitStoreLocal (sc.locals.length + 1)

/-- What the rounds of a `dotimes` are compiled to. -/
structure TimesCode (R : Run) (sc : Scope) (s : Symbol) (block : List Cell)
    (c c₁ c₂ c₃ : Compiler) : Prop where
  test : c₁ = timesTest sc c
  body : compileLoopBody R.ctx.compile block
    (if block.isEmpty then ((c₁.emitJump .jumpIfNil).2.emitOp .nil).emitOp .pop
      else (c₁.emitJump .jumpIfNil).2) = .value c₂
  step : c₃ = timesStep sc c₂
  locals : c.locals = (timesScope sc s).locals

theorem TimesCode.extends_test {c₃ : Compiler} (h : R.TimesCode sc s block c c₁ c₂ c₃) :
    Extends c c₁ := by
  rw [h.test]
  exact (((Extends.refl c).emitLoadLocal _).emitLoadLocal _).emitOp .lt

theorem TimesCode.extends_body {c₃ : Compiler} (h : R.TimesCode sc s block c c₁ c₂ c₃) :
    Extends (c₁.emitJump .jumpIfNil).2 c₂ := by
  refine ExtendsBy.trans ?_ (compileLoopBody_ext h.body)
  split
  · exact ((Extends.refl _).emitOp .nil).emitOp .pop
  · exact Extends.refl _

theorem TimesCode.extends_step {c₃ : Compiler} (h : R.TimesCode sc s block c c₁ c₂ c₃) :
    Extends c₂ c₃ := by
  rw [h.step]
  exact (((Extends.refl c₂).emitLoadLocal _).emitOp .add1).emitStoreLocal _

theorem TimesCode.emitted_test {c₃ : Compiler} (h : R.TimesCode sc s block c c₁ c₂ c₃) :
    emitted c c₁ = loadLocalBytes (sc.locals.length + 1) ++
      (loadLocalBytes sc.locals.length ++ [VmOpcode.lt.toByte]) := by
  apply emitted_of_code_eq
  rw [h.test, timesTest, emitOp_code, emitLoadLocal_code, emitLoadLocal_code]
  simp only [List.append_assoc]

theorem TimesCode.emitted_step {c₃ : Compiler} (h : R.TimesCode sc s block c c₁ c₂ c₃) :
    emitted c₂ c₃ = loadLocalBytes (sc.locals.length + 1) ++
      (VmOpcode.add1.toByte :: storeLocalBytes (sc.locals.length + 1)) := by
  apply emitted_of_code_eq
  rw [h.step, timesStep, emitStoreLocal_code, emitOp_code, emitLoadLocal_code]
  simp

/-- The test of a round, with `count` rounds left. -/
theorem TimesCode.test_goes {c₃ : Compiler} {n : Word} {i count len : Nat}
    (h : R.TimesCode sc s block c c₁ c₂ c₃) (hfew : sc.locals.length + 2 ≤ NewLispNeo.maxLocals)
    (hcode : R.Code p (emitted c c₁))
    (hskip : R.Code (p + (emitted c c₁).length) (jumpBytes .jumpIfNil len)) (hlen : len < 32768)
    (hcount : i + count = n.toInt.toNat)
    (hvar : ∃ u, F[sc.locals.length + 1]? = some u ∧
      u.deref R.globals = .value (.long (BitVec.ofNat 64 i)))
    (hlim : ∃ u, F[sc.locals.length]? = some u ∧ u.deref R.globals = .value (.long n)) :
    R.Goes p F T (if count = 0 then p + (emitted c c₁).length + 3 + len
      else p + (emitted c c₁).length + 3) F T := by
  obtain ⟨u, hu, hderef⟩ := hvar
  obtain ⟨u', hu', hderef'⟩ := hlim
  obtain ⟨comp, hcomp, htrue⟩ := compare_count R.ctx.compile.runtime hcount
  have hbig : sc.locals.length + 2 ≤ 65536 := by
    simp only [NewLispNeo.maxLocals] at hfew
    omega
  have htest := h.emitted_test
  rw [htest, code_append, code_append] at hcode
  obtain ⟨hload₁, hload₂, hlt⟩ := hcode
  have hg₁ := goes_loadLocal (F := F) (T := T) hload₁ (by omega) hu
  have hg₂ := goes_loadLocal (F := F) (T := T ++ [u]) hload₂ (by omega) hu'
  rw [List.append_assoc] at hg₂
  obtain ⟨x, hx, hg₃⟩ := goes_comparison (F := F) (T := T) .less hcomp hlt hderef
    hderef'
  have hg₄ := goes_jumpIfNil (F := F) (T := T) hskip hlen hx
  have hat : p + (loadLocalBytes (sc.locals.length + 1)).length +
      (loadLocalBytes sc.locals.length).length + 1 = p + (emitted c c₁).length := by
    rw [htest]
    simp only [List.length_append, List.length_singleton]
    omega
  rw [hat] at hg₃
  have hfalsy : isFalsy (ofBool (Machine.comparisonTest .less comp)) = true ↔ count = 0 := by
    cases hless : Machine.comparisonTest .less comp with
    | true => simpa [ofBool, isFalsy, isNil, isEmpty] using htrue.mp hless
    | false => simpa [ofBool, isFalsy, isNil, hless] using htrue
  simp only [hfalsy] at hg₄
  exact ((hg₁.trans hg₂).trans hg₃).trans hg₄

/-- The end of a round: the loop variable goes on. -/
theorem TimesCode.step_goes {c₃ : Compiler} {i : Nat} {u : Val}
    (h : R.TimesCode sc s block c c₁ c₂ c₃) (hself : SelfEvaluates R.ctx.ev)
    (hfew : sc.locals.length + 2 ≤ NewLispNeo.maxLocals) (hcode : R.Code p (emitted c₂ c₃))
    (hu : F[sc.locals.length + 1]? = some u)
    (hderef : u.deref R.globals = .value (.long (BitVec.ofNat 64 i))) :
    R.Goes p F T (p + (emitted c₂ c₃).length)
      (F.set (sc.locals.length + 1) (Val.temp (.long (BitVec.ofNat 64 (i + 1))))) T := by
  have hbig : sc.locals.length + 2 ≤ 65536 := by
    simp only [NewLispNeo.maxLocals] at hfew
    omega
  have hsum : combine R.ctx.compile.runtime .add (.long (BitVec.ofNat 64 i)) (.long 1) =
      .value (.long (BitVec.ofNat 64 (i + 1))) := by
    simp [combine, getInteger64, intStep, BitVec.ofNat_add]
  rw [h.emitted_step, code_append, code_cons] at hcode
  obtain ⟨hload, hadd, hstore⟩ := hcode
  have hg₁ := goes_loadLocal (F := F) (T := T) hload (by omega) hu
  have hg₂ := goes_immediate (F := F) (T := T) hself (fun _ => rfl) (by decide) (by decide) hsum
    hadd hderef
  have hg₃ := goes_storeLocal (F := F) (T := T)
    (v := Val.temp (.long (BitVec.ofNat 64 (i + 1)))) hstore (by omega)
    (List.getElem?_eq_some_iff.mp hu).1
  rw [h.emitted_step]
  convert (hg₁.trans hg₂).trans hg₃ using 1
  simp only [List.length_append, List.length_cons]
  omega

/-- The rounds of a `dotimes`, from the test on. -/
theorem counts_go {c₃ : Compiler} {saved : Binding} {n : Word} {cond : Option Cell}
    (hsmall : R.Small) (hself : SelfEvaluates R.ctx.ev) (hsim : R.Simulates ev follows leavesOf)
    (hprot : isProtected R.ctx.compile.flags s = false) (hplain : isAnaphoric s = false)
    (hfew : sc.locals.length + 2 ≤ NewLispNeo.maxLocals)
    (htimes : R.TimesCode sc s block c c₁ c₂ c₃)
    (hp : R.Placed (timesScope sc s) c
      ((c₃.jumpBack c.code.length).patchJump (c₁.emitJump .jumpIfNil).1) p)
    (count : Nat) {i : Nat} {cell : Val} (hcount : i + count = n.toInt.toNat)
    (hev : dotimesLoop ev s cond block count i σ cell = .value (v, σ'))
    (hf : CountsFollow ev follows (timesScope sc s) s cond block count i σ)
    (hr : R.Rel sc.unnamed F (outside s saved σ))
    (hvar : ∃ u, F[sc.locals.length + 1]? = some u ∧
      u.deref R.globals = .value (.long (BitVec.ofNat 64 i)))
    (hlim : ∃ u, F[sc.locals.length]? = some u ∧ u.deref R.globals = .value (.long n)) :
    ∃ F', R.Goes p F T (p + (emitted c ((c₃.jumpBack c.code.length).patchJump
        (c₁.emitJump .jumpIfNil).1)).length) F' T ∧
      R.Rel sc.unnamed F' (outside s saved σ') ∧
      Kept sc.unnamed F (outside s saved σ) F' (outside s saved σ') := by
  have hext₁ := htimes.extends_test
  have hext₂ := htimes.extends_body
  have hext₃ := htimes.extends_step
  have hcode := hp.code
  have hlinks₃ : R.Links c₃ := by
    have h := hp.links.of_pools (pools_patchJump _ _)
    exact h.of_pools ((Extends.refl c₃).jumpBack c.code.length).pools
  have hlinks₂ : R.Links c₂ := hlinks₃.of_pools hext₃.pools
  have hjump := emitJump_extends c₁ .jumpIfNil
  have hlen := code_length_le hp.code (by
    rw [emitted_loop hext₁ (hext₂.trans hext₃)]
    simp [jumpBytes])
  have hsize := hsmall.code
  rw [emitted_loop hext₁ (hext₂.trans hext₃)] at hcode hlen ⊢
  simp only [code_append, hext₂.emitted_trans hext₃, Machine.jumpBytes_length] at hcode
  obtain ⟨htest, hskip, ⟨hbody, hstep⟩, hback⟩ := hcode
  simp only [List.length_append, Machine.jumpBytes_length,
    hext₂.emitted_trans hext₃] at hlen hskip hback ⊢
  induction count generalizing i σ F cell with
  | zero =>
      have hg := htimes.test_goes (T := T) hfew htest hskip (by omega) hcount hvar hlim
      rw [if_pos rfl] at hg
      simp only [dotimesLoop, Outcome.value.injEq, Prod.mk.injEq] at hev
      obtain ⟨rfl, rfl⟩ := hev
      refine ⟨F, ?_, hr, Kept.refl _ _ _⟩
      convert hg using 1
      omega
  | succ count ih =>
      have hg₁ := htimes.test_goes (T := T) hfew htest hskip (by omega) hcount hvar hlim
      rw [if_neg (Nat.succ_ne_zero count)] at hg₁
      obtain ⟨σ₁, w, σ₂, hsame, hblock, hfb, hself₂, hev, hf⟩ := dotimesLoop_round hev hf
      obtain ⟨u, hu, hderef⟩ := hvar
      have hin := hr.enterRound hprot hplain hfew hu hderef
      obtain ⟨F₂, hg₂, hr₂, hk₂⟩ := timesBody_goes (T := T) hsim htimes.body hblock hfb
        ⟨hbody, hlinks₂, htimes.locals.symm.trans (hext₁.trans hjump).locals_eq.symm⟩
        (hin.congr hsame)
      have hk₂' : Kept (timesScope sc s) F (σ.assign s (.long (BitVec.ofNat 64 i))) F₂ σ₂ :=
        ((Kept.refl _ F _).congr hsame).trans hk₂
      obtain ⟨hr₃, hk₃⟩ := hr.leaveRound hr₂ hk₂'
      obtain ⟨hslot, hvisible⟩ := slot_timesScope sc s
      obtain ⟨u₂, hu₂, hderef₂⟩ := hr₂.slot s _ hvisible hslot
      rw [hself₂] at hderef₂
      have hg₃ := htimes.step_goes (T := T) hself hfew hstep hu₂ hderef₂
      have hg₄ := goes_jumpBack (F := F₂.set (sc.locals.length + 1)
        (Val.temp (.long (BitVec.ofNat 64 (i + 1))))) (T := T) hback (by omega) (by omega)
      have hlt := (List.getElem?_eq_some_iff.mp hu₂).1
      have hr₄ : R.Rel sc.unnamed (F₂.set (sc.locals.length + 1)
          (Val.temp (.long (BitVec.ofNat 64 (i + 1))))) (outside s saved σ₂) := by
        refine hr₃.set fun t _ hslot' => ?_
        rw [Scope.slot_unnamed] at hslot'
        have hslot_lt := Scope.slot_lt hslot'
        omega
      obtain ⟨F', hg', hr', hk'⟩ := ih (by omega) hev hf hr₄
        ⟨_, by simp [hlt], Val.temp_deref _ _⟩
        (by
          obtain ⟨u', hu', hderef'⟩ := hlim
          refine ⟨u', ?_, hderef'⟩
          have hne : sc.locals.length + 1 ≠ sc.locals.length := by omega
          rw [List.getElem?_set_ne hne, hk₃.unseen _ unseen_unnamed]
          exact hu')
      refine ⟨F', ?_, hr', (hk₃.set_new (by simp)).trans hk'⟩
      rw [Nat.add_assoc _ _ (emitted c₂ c₃).length] at hg₃
      have hround := ((hg₁.trans hg₂).trans hg₃).trans hg₄
      refine Goes.trans ?_ hg'
      convert hround using 1
      omega

end Rounds

/-- The rounds with the jump back. -/
def timesLoop (c c₁ c₂ : Compiler) : Compiler :=
  (c₂.jumpBack c.code.length).patchJump (c₁.emitJump .jumpIfNil).1

theorem pools_leave (c : Compiler) (k : Nat) : Pools c ((c.emitOp .nil).restoreLocals k) := by
  have hnil := ((Extends.refl c).emitOp .nil).pools
  exact ⟨hnil.constants, hnil.symbols, hnil.maxLocals⟩

theorem TimesCode.extends_loop {c₃ : Compiler} (h : R.TimesCode sc s block c c₁ c₂ c₃) :
    Extends c (timesLoop c c₁ c₃) := by
  have hext := (h.extends_test.emitJump .jumpIfNil).trans (h.extends_body.trans h.extends_step)
  exact (hext.jumpBack c.code.length).patchJump (h.extends_test.le_jumpPos .jumpIfNil)

/-- The pieces of a `dotimes`: the count, both slots and the rounds. -/
theorem dotimes_code {countExpr : Cell} {header : List Cell}
    (hc : compileDotimes R.ctx.compile
      (.expression (.symbol s :: countExpr :: header) :: block) c = .value c')
    (hlocals : sc.locals = c.locals) :
    ∃ c₁ c₂ c₅ c₆ c₇ c₈, compileExpr R.ctx.compile countExpr false c₁ = .value c₂ ∧
      (countScope sc s).locals = c₁.locals ∧ sc.locals.length + 2 ≤ NewLispNeo.maxLocals ∧
      Pools c₂ c₅ ∧ sc.locals.length + 2 ≤ c₅.maxLocals ∧
      R.TimesCode sc s block c₅ c₆ c₇ c₈ ∧ Pools c₅ (timesLoop c₅ c₆ c₈) ∧
      Pools (timesLoop c₅ c₆ c₈) c' ∧
      emitted c c' = emitted c₁ c₂ ++ (storeLocalBytes sc.locals.length ++
        (VmOpcode.const0.toByte :: (storeLocalBytes (sc.locals.length + 1) ++
          (emitted c₅ (timesLoop c₅ c₆ c₈) ++ [VmOpcode.nil.toByte])))) := by
  simp only [compileDotimes, Outcome.bind_eq_value_iff, Prod.exists, Outcome.value.injEq] at hc
  obtain ⟨countSlot, c₁, hadd₁, c₂, hcount, varSlot, c₃, hadd₂, c₇, hbody, rfl⟩ := hc
  obtain ⟨rfl, hroom₁, hc₁⟩ := addLocal_eq hadd₁
  obtain ⟨rfl, hroom₂, hc₃⟩ := addLocal_eq hadd₂
  have hcext := compileExpr_extends hcount
  have hlocals₂ : (c₂.emitStoreLocal c.locals.length).locals = sc.locals ++ [none] := by
    rw [(hcext.emitStoreLocal c.locals.length).locals_eq, hc₁, hlocals]
  have hlen₂ : (c₂.emitStoreLocal c.locals.length).locals.length = sc.locals.length + 1 := by
    rw [hlocals₂]
    simp
  rw [hlen₂] at hbody hroom₂ hc₃ ⊢
  rw [← hlocals] at hbody hc₃ hlocals₂ ⊢
  have hc₃ext : Extends c₃ ((c₃.emitOp .const0).emitStoreLocal (sc.locals.length + 1)) :=
    ((Extends.refl c₃).emitOp .const0).emitStoreLocal _
  have htimes : R.TimesCode sc s block
      ((c₃.emitOp .const0).emitStoreLocal (sc.locals.length + 1))
      (timesTest sc ((c₃.emitOp .const0).emitStoreLocal (sc.locals.length + 1))) c₇
      (timesStep sc c₇) := by
    refine ⟨rfl, hbody, rfl, ?_⟩
    rw [hc₃ext.locals_eq, hc₃]
    simp only [timesScope, Scope.bound, hlocals₂, List.append_assoc, List.singleton_append]
  refine ⟨c₁, c₂, _, _, c₇, _, hcount, ?_, by omega, ?_, ?_, htimes, ?_, ?_, ?_⟩
  · rw [hc₁, countScope, hlocals]
  · have hpools : Pools c₂ (c₂.emitStoreLocal sc.locals.length) :=
      ((Extends.refl c₂).emitStoreLocal sc.locals.length).pools
    refine Pools.trans (Pools.trans hpools ?_) hc₃ext.pools
    rw [hc₃]
    exact ⟨List.prefix_rfl, List.prefix_rfl, le_max_left _ _⟩
  · refine Nat.le_trans ?_ hc₃ext.maxLocals
    rw [hc₃]
    exact le_max_right _ _
  · exact htimes.extends_loop.pools
  · exact pools_leave _ _
  · apply emitted_of_code_eq
    have hcode₃ : c₃.code = c.code ++ emitted c₁ c₂ ++ storeLocalBytes sc.locals.length := by
      rw [hc₃]
      dsimp only
      rw [emitStoreLocal_code, hcext.code_eq, hc₁]
    have hloop := htimes.extends_loop.code_eq
    rw [emitStoreLocal_code, emitOp_code, hcode₃] at hloop
    rw [restoreLocals_code, emitOp_code]
    refine (congrArg (· ++ [VmOpcode.nil.toByte]) hloop).trans ?_
    simp only [List.append_assoc, List.cons_append]
    rfl

/-- The code of a `dotimes`, which leaves `nil`. -/
theorem dotimes_arrives {args : List Cell} {leaves : Demand → Prop}
    (hanaphoric : ∀ s, isAnaphoric s = true → isProtected R.ctx.compile.flags s = true)
    (hsmall : R.Small) (hself : SelfEvaluates R.ctx.ev) (hsim : R.Simulates ev follows leavesOf)
    (hc : compileDotimes R.ctx.compile args c = .value c')
    (hev : pDotimes R.ctx.compile.runtime ev R.ctx.compile.flags σ args = .value (v, σ'))
    (hf : DotimesFollows ev follows leavesOf sc σ args) (hp : R.Placed sc c c' p)
    (hr : R.Rel sc F σ) (hl : ∀ d, leaves d ↔ d.Meets .nil v.cell) :
    R.Arrives sc p (p + (emitted c c').length) F T σ v σ' leaves := by
  obtain ⟨s, countExpr, header, block, rfl⟩ : ∃ s countExpr header block,
      args = .expression (.symbol s :: countExpr :: header) :: block := by
    unfold compileDotimes at hc
    split at hc
    · exact ⟨_, _, _, _, rfl⟩
    · cases hc
  obtain ⟨c₁, c₂, c₅, c₆, c₇, c₈, hcount, hlocals₁, hfew, hpools₂, hmax, htimes, hpools₅,
    hpools, hem⟩ := dotimes_code hc hp.locals
  simp only [pDotimes] at hev
  split at hev
  · cases hev
  rename_i hprot
  split at hev
  · cases hev
  simp only [evaluateParam, List.tail_cons, reduceCtorEq, if_false, Outcome.bind_eq_value_iff,
    Prod.exists, Outcome.value.injEq, Prod.mk.injEq] at hev
  obtain ⟨v₁, σ₁, hv₁, n, hn, cell, σ₃, hloop, last, -, rfl, rfl⟩ := hev
  obtain ⟨hfc, hlc, hf⟩ := hf
  obtain ⟨n', hcell, hf⟩ := hf v₁ σ₁ hv₁
  obtain rfl : n' = n := by
    rw [hcell] at hn
    exact Outcome.value.inj hn
  have hplain : isAnaphoric s = false := by
    by_contra hs
    exact hprot (hanaphoric s (by simpa using hs))
  have hlinks₅ : R.Links c₅ := (hp.links.of_pools hpools).of_pools hpools₅
  have hlinks₂ : R.Links c₂ := hlinks₅.of_pools hpools₂
  have hframe : sc.locals.length + 2 ≤ F.length :=
    hmax.trans (hlinks₅.maxLocals.trans hr.size)
  have hbig : sc.locals.length + 2 ≤ 65536 := by
    simp only [NewLispNeo.maxLocals] at hfew
    omega
  have hcode := hp.code
  rw [hem] at hcode ⊢
  simp only [code_append] at hcode
  obtain ⟨hcode₁, hstore₁, hrest⟩ := hcode
  rw [code_cons] at hrest
  obtain ⟨hzero, hrest⟩ := hrest
  simp only [code_append] at hrest
  obtain ⟨hstore₂, hloopCode, hnil⟩ := hrest
  -- the count, where the loop variable is hidden
  have hr₀ := hr.unnamed (by omega)
  have hbindNil : ∀ t, t ≠ s → isAnaphoric t = false →
      (σ.bindNil s).contents t = σ.contents t := fun t hts _ => Interp.bindNil_contents_ne _ hts
  obtain ⟨F₁, w, hg₁, hw, hr₁, hk₁⟩ := operand_arrives (T := T) hsim hcount hv₁ hfc hlc
    ⟨hcode₁, hlinks₂, hlocals₁⟩ (hr₀.hide hbindNil)
  rw [hcell] at hw
  obtain ⟨hr₁, hk₁⟩ := hr₀.unhide (τ := outside s (σ.bind s) σ₁) hr₁ hk₁ hbindNil
    (outside_self _ _ _) fun t hts => outside_ne _ _ hts
  have hlen₁ : F₁.length = F.length := hk₁.length_eq
  -- the slots of the count and of the loop variable
  have hg₂ := goes_storeLocal (F := F₁) (T := T) (v := w) hstore₁ (by omega) (by omega)
  have hg₃ := goes_const0 (F := F₁.set sc.locals.length w) (T := T) hzero
  have hg₄ := goes_storeLocal (F := F₁.set sc.locals.length w) (T := T)
    (v := Val.temp (.long 0)) hstore₂ (by omega) (by rw [List.length_set]; omega)
  have hr₂ : R.Rel sc.unnamed ((F₁.set sc.locals.length w).set (sc.locals.length + 1)
      (Val.temp (.long 0))) (outside s (σ.bind s) σ₁) := by
    refine Rel.set (hr₁.set fun t _ hslot => ?_) fun t _ hslot => ?_
    all_goals
      rw [Scope.slot_unnamed] at hslot
      have hslot_lt := Scope.slot_lt hslot
      omega
  have hvar : ((F₁.set sc.locals.length w).set (sc.locals.length + 1)
      (Val.temp (.long 0)))[sc.locals.length + 1]? = some (Val.temp (.long 0)) :=
    List.getElem?_set_self (by rw [List.length_set]; omega)
  have hlim : ((F₁.set sc.locals.length w).set (sc.locals.length + 1)
      (Val.temp (.long 0)))[sc.locals.length]? = some w := by
    rw [List.getElem?_set_ne (Nat.succ_ne_self _), List.getElem?_set_self (by omega)]
  obtain ⟨F', hg₅, hr', hk'⟩ := counts_go (T := T) hsmall hself hsim (by simpa using hprot) hplain
    hfew htimes ⟨hloopCode, hp.links.of_pools hpools, htimes.locals.symm⟩ n'.toInt.toNat
    (Nat.zero_add _) hloop hf hr₂ ⟨_, hvar, Val.temp_deref _ _⟩ ⟨w, hlim, hw⟩
  have hg₆ := goes_nil (F := F') (T := T) hnil
  refine ⟨F', Val.nilCell, .nil, ?_, rfl, hl, hr'.of_unnamed, ?_⟩
  · convert ((((hg₁.trans hg₂).trans hg₃).trans hg₄).trans hg₅).trans hg₆ using 1
    simp only [List.length_append, List.length_cons, List.length_nil]
    omega
  · exact ((hk₁.of_unnamed.set_new le_rfl).set_new (Nat.le_succ _)).trans hk'.of_unnamed

end Run

end NewLispNeo
