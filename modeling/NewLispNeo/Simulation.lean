/-
The code of an inlined form against the tree-walker: what the frame holds, and
the simulation of constants, variables and sequences.
-/
import NewLispNeo.Follows
import NewLispNeo.FormCode
import NewLispNeo.Operands

namespace NewLispNeo

open StepRun Compiler
open Machine (operand jumpBytes loadLocalBytes storeLocalBytes)

namespace Run

variable (R : Run)

/-- The machine of a run at a position, with the slots `F` and the operands
`T` of the current frame. -/
def machine (p : Nat) (F T : List Val) : Machine :=
  { vmStack := R.base ++ F ++ T
    bytecode := R.bytecode
    ip := p
    fp := R.base.length
    currentSelf := R.self
    frames := R.frames
    interp := R.globals }

/-- The bytes at a position of the code. -/
def Code (p : Nat) (bytes : List UInt8) : Prop :=
  CodeAt R.bytecode.code p bytes

/-- Some steps lead from one position to another. -/
def Goes (p : Nat) (F T : List Val) (p' : Nat) (F' T' : List Val) : Prop :=
  Reaches (Machine.step R.ctx) (R.machine p F T) (R.machine p' F' T')

/-- Operands and jumps fit into sixteen bits. -/
structure Small : Prop where
  code : R.bytecode.code.length < 32768
  constants : R.bytecode.constants.length ≤ 65536
  symbols : R.bytecode.symbols.length ≤ 65536

/-- The bytecode holds the pools of `c` and has its slots. -/
structure Links (c : Compiler) : Prop where
  constants : c.constants <+: R.bytecode.constants
  symbols : c.symbols <+: R.bytecode.symbols
  maxLocals : c.maxLocals ≤ R.bytecode.numLocals

variable {R} {p p' q : Nat} {F F' F'' T T' T'' : List Val} {v w : Val}
  {c c' : Compiler}

theorem Links.of_pools (h : R.Links c') (hp : Pools c c') : R.Links c :=
  ⟨hp.constants.trans h.constants, hp.symbols.trans h.symbols,
    hp.maxLocals.trans h.maxLocals⟩

theorem Goes.refl : R.Goes p F T p F T := Reaches.refl _

theorem Goes.trans {p₁ p₂ : Nat} (h : R.Goes p F T p₁ F' T')
    (h' : R.Goes p₁ F' T' p₂ F'' T'') : R.Goes p F T p₂ F'' T'' :=
  Reaches.trans h h'

theorem code_append {a b : List UInt8} :
    R.Code p (a ++ b) ↔ R.Code p a ∧ R.Code (p + a.length) b :=
  CodeAt.append_iff

theorem code_cons {a : UInt8} {b : List UInt8} :
    R.Code p (a :: b) ↔ R.Code p [a] ∧ R.Code (p + 1) b := by
  rw [← List.singleton_append, code_append]
  rfl

theorem Goes.of_reaches {m : Machine}
    (h : Reaches (Machine.step R.ctx) (R.machine p F T) m)
    (hm : m = R.machine p' F' T') : R.Goes p F T p' F' T' := by
  rw [Goes, ← hm]
  exact h

/-- An instruction that pushes `v`. -/
theorem Goes.of_push
    (h : Reaches (Machine.step R.ctx) (R.machine p F T)
      ((R.machine p F T).goTo p' ((R.machine p F T).vmStack ++ [v]))) :
    R.Goes p F T p' F (T ++ [v]) :=
  .of_reaches h (by simp [machine, Machine.goTo])

theorem goes_nil (h : R.Code p [VmOpcode.nil.toByte]) :
    R.Goes p F T (p + 1) F (T ++ [Val.nilCell]) :=
  .of_push (Machine.reaches_nil h)

theorem goes_true (h : R.Code p [VmOpcode.true_.toByte]) :
    R.Goes p F T (p + 1) F (T ++ [Val.shared .true_]) :=
  .of_push (Machine.reaches_true h)

theorem goes_const0 (h : R.Code p [VmOpcode.const0.toByte]) :
    R.Goes p F T (p + 1) F (T ++ [Val.temp (.long 0)]) :=
  .of_push (Machine.reaches_const0 h)

theorem goes_const1 (h : R.Code p [VmOpcode.const1.toByte]) :
    R.Goes p F T (p + 1) F (T ++ [Val.temp (.long 1)]) :=
  .of_push (Machine.reaches_const1 h)

theorem goes_const2 (h : R.Code p [VmOpcode.const2.toByte]) :
    R.Goes p F T (p + 1) F (T ++ [Val.temp (.long 2)]) :=
  .of_push (Machine.reaches_const2 h)

theorem goes_loadSelf (h : R.Code p [VmOpcode.loadSelf.toByte]) :
    R.Goes p F T (p + 1) F (T ++ [Val.temp R.self]) :=
  .of_push (Machine.reaches_loadSelf h)

theorem goes_const {i : Nat} {k : Cell}
    (h : R.Code p (VmOpcode.const.toByte :: operand i))
    (hk : R.bytecode.constants[i]? = some k) (hi : i < 65536) :
    R.Goes p F T (p + 3) F (T ++ [Val.temp k]) :=
  .of_push (Machine.reaches_const h hk hi)

theorem goes_loadGlobal {i : Nat} {s : Symbol}
    (h : R.Code p (VmOpcode.loadGlobal.toByte :: operand i))
    (hs : R.bytecode.symbols[i]? = some s) (hi : i < 65536)
    (hv : evaluateSymbol R.globals s = .value v) :
    R.Goes p F T (p + 3) F (T ++ [v]) :=
  .of_push (Machine.reaches_loadGlobal h hs hi hv)

theorem goes_pop (h : R.Code p [VmOpcode.pop.toByte]) :
    R.Goes p F (T ++ [v]) (p + 1) F T :=
  .of_reaches (Machine.reaches_pop (v := v) h
    (List.append_assoc _ _ _).symm) rfl

theorem goes_dup (h : R.Code p [VmOpcode.dup.toByte]) :
    R.Goes p F (T ++ [v]) (p + 1) F (T ++ [v, v]) :=
  .of_reaches (Machine.reaches_dup (v := v) h
    (List.append_assoc _ _ _).symm) (by simp [machine, Machine.goTo])

theorem goes_loadLocal {k : Nat} (h : R.Code p (loadLocalBytes k))
    (hk : k < 65536) (hv : F[k]? = some v) :
    R.Goes p F T (p + (loadLocalBytes k).length) F (T ++ [v]) := by
  refine .of_push (Machine.reaches_loadLocal h hk ?_)
  have hlt := (List.getElem?_eq_some_iff.mp hv).1
  simp only [machine, List.append_assoc]
  rw [List.getElem?_append_right (by omega),
    List.getElem?_append_left (by omega)]
  simpa using hv

theorem goes_storeLocal {k : Nat} (h : R.Code p (storeLocalBytes k))
    (hk : k < 65536) (hlt : k < F.length) :
    R.Goes p F (T ++ [v]) (p + (storeLocalBytes k).length) (F.set k v) T := by
  refine .of_reaches (Machine.reaches_storeLocal (v := v) h hk
    (List.append_assoc _ _ _).symm) ?_
  simp only [machine, Machine.goTo, List.append_assoc]
  rw [List.set_append_right _ _ (by omega),
    List.set_append_left _ _ (by omega)]
  simp

/-- A jump over the next `n` bytes. -/
theorem goes_jump {n : Nat} (h : R.Code p (jumpBytes .jump n))
    (hn : n < 32768) : R.Goes p F T (p + 3 + n) F T := by
  refine .of_reaches (Machine.reaches_jump h ⟨by omega, by omega, by omega⟩) ?_
  have hto : (((R.machine p F T).ip + 3 : Nat) + (n : Int)).toNat =
      p + 3 + n := by simp only [machine]; omega
  rw [hto]
  rfl

theorem goes_jumpIfNil {n : Nat} {c : Cell}
    (h : R.Code p (jumpBytes .jumpIfNil n)) (hn : n < 32768)
    (hv : v.deref R.globals = .value c) :
    R.Goes p F (T ++ [v]) (if isFalsy c = true then p + 3 + n else p + 3) F
      T := by
  have hb : (R.machine p F (T ++ [v])).Before (jumpBytes .jumpIfNil n) := h
  have hr : Reaches (Machine.step R.ctx) (R.machine p F (T ++ [v])) _ :=
    Machine.reaches_jumpIfNil (v := v) hb
      (List.append_assoc _ _ _).symm hv ⟨by omega, by omega, by omega⟩
  refine .of_reaches hr ?_
  have hto : (((R.machine p F (T ++ [v])).ip + 3 : Nat) + (n : Int)).toNat =
      p + 3 + n := by simp only [machine]; omega
  rw [hto]
  split <;> rfl

theorem goes_jumpIfNotNil {n : Nat} {c : Cell}
    (h : R.Code p (jumpBytes .jumpIfNotNil n)) (hn : n < 32768)
    (hv : v.deref R.globals = .value c) :
    R.Goes p F (T ++ [v]) (if isFalsy c = true then p + 3 else p + 3 + n) F
      T := by
  have hb : (R.machine p F (T ++ [v])).Before (jumpBytes .jumpIfNotNil n) := h
  have hr : Reaches (Machine.step R.ctx) (R.machine p F (T ++ [v])) _ :=
    Machine.reaches_jumpIfNotNil (v := v) hb
      (List.append_assoc _ _ _).symm hv ⟨by omega, by omega, by omega⟩
  refine .of_reaches hr ?_
  have hto : (((R.machine p F (T ++ [v])).ip + 3 : Nat) + (n : Int)).toNat =
      p + 3 + n := by simp only [machine]; omega
  rw [hto]
  cases isFalsy c <;> rfl

/-- The slots hold what the tree-walker's symbols do, and the symbols without a
slot are the same for both. -/
structure Rel (R : Run) (sc : Scope) (F : List Val) (σ : Interp) : Prop where
  size : R.bytecode.numLocals ≤ F.length
  few : sc.locals.length ≤ NewLispNeo.maxLocals
  plain : ∀ s, sc.slot s ≠ none → isAnaphoric s = false
  slot : ∀ s k, s ∉ sc.hidden → sc.slot s = some k →
    ∃ v, F[k]? = some v ∧ v.deref R.globals = .value (σ.contents s)
  global : ∀ s, s ∉ sc.hidden → sc.slot s = none → ¬ R.IsSpecial s →
    R.globals.contents s = σ.contents s

/-- A slot of the scope that no variable to be read stands for. -/
def Unseen (sc : Scope) (k : Nat) : Prop :=
  k < sc.locals.length ∧ ∀ s, s ∉ sc.hidden → sc.slot s ≠ some k

/-- What code must not touch is as before: slots no variable stands for, and
variables that wait for their initialiser. -/
structure Kept (sc : Scope) (F : List Val) (σ : Interp) (F' : List Val)
    (σ' : Interp) : Prop where
  length_eq : F'.length = F.length
  unseen : ∀ k, Unseen sc k → F'[k]? = F[k]?
  hidden : ∀ s ∈ sc.hidden, isAnaphoric s = false →
    σ'.contents s = σ.contents s

/-- The variables are the same, apart from those the tree-walker binds on its
own. -/
def SameVars (σ σ' : Interp) : Prop :=
  ∀ s, isAnaphoric s = false → σ'.contents s = σ.contents s

theorem SameVars.pointIt (σ : Interp) (v : Val) : SameVars σ (σ.pointIt v) :=
  fun _ hs => σ.pointIt_contents_ne v
    (fun hit => by simp [isAnaphoric, hit] at hs)

theorem SameVars.clearIt (σ : Interp) : SameVars σ σ.clearIt :=
  fun _ hs => σ.clearIt_contents_ne
    (fun hit => by simp [isAnaphoric, hit] at hs)

namespace Kept

variable {sc : Scope} {σ σ₁ σ₂ : Interp}

theorem refl (sc : Scope) (F : List Val) (σ : Interp) : Kept sc F σ F σ :=
  ⟨rfl, fun _ _ => rfl, fun _ _ _ => rfl⟩

theorem trans (h : Kept sc F σ F' σ₁) (h' : Kept sc F' σ₁ F'' σ₂) :
    Kept sc F σ F'' σ₂ :=
  ⟨h'.length_eq.trans h.length_eq,
    fun k hk => (h'.unseen k hk).trans (h.unseen k hk),
    fun s hs hplain => (h'.hidden s hs hplain).trans (h.hidden s hs hplain)⟩

theorem congr (h : Kept sc F σ F' σ₁) (hs : SameVars σ₁ σ₂) :
    Kept sc F σ F' σ₂ :=
  ⟨h.length_eq, h.unseen,
    fun s hhid hplain => (hs s hplain).trans (h.hidden s hhid hplain)⟩

theorem pointIt (h : Kept sc F σ F' σ₁) (v : Val) :
    Kept sc F σ F' (σ₁.pointIt v) := h.congr (.pointIt σ₁ v)

end Kept

/-- The code between two positions leaves a value behind that serves the demands
of which `leaves` holds, and the slots in scope are those of `σ'`. -/
def Arrives (R : Run) (sc : Scope) (p p' : Nat) (F T : List Val)
    (σ : Interp) (v : Val) (σ' : Interp) (leaves : Demand → Prop) : Prop :=
  ∃ F' w cell, R.Goes p F T p' F' (T ++ [w]) ∧
    w.deref R.globals = .value cell ∧
    (∀ d, leaves d ↔ d.Meets cell v.cell) ∧ R.Rel sc F' σ' ∧
    Kept sc F σ F' σ'

/-- The code of a part of the lambda stands at `p`, its scope is `sc`. -/
structure Placed (R : Run) (sc : Scope) (c c' : Compiler) (p : Nat) :
    Prop where
  code : R.Code p (emitted c c')
  links : R.Links c'
  locals : sc.locals = c.locals

/-- The code of every expression follows the evaluator `ev` where `follows`
holds, and leaves behind what `leaves` says. -/
def Simulates (R : Run) (ev : Evaluator)
    (follows : Scope → Interp → Cell → Prop)
    (leaves : Demand → Interp → Cell → Prop) : Prop :=
  ∀ ⦃e : Cell⦄ ⦃isTail : Bool⦄ ⦃c c' : Compiler⦄ ⦃sc : Scope⦄
    ⦃σ σ' : Interp⦄ ⦃v : Val⦄ ⦃p : Nat⦄ ⦃F : List Val⦄ (T : List Val),
    compileExpr R.ctx.compile e isTail c = .value c' →
    ev σ e = .value (v, σ') → follows sc σ e → R.Placed sc c c' p →
    R.Rel sc F σ →
    R.Arrives sc p (p + (emitted c c').length) F T σ v σ'
      (leaves · σ e)

variable {sc : Scope} {σ σ' : Interp} {leaves : Demand → Prop}

theorem Rel.congr (h : R.Rel sc F σ) (hs : SameVars σ σ') :
    R.Rel sc F σ' := by
  refine ⟨h.size, h.few, h.plain, ?_, ?_⟩
  · intro s k hhid hslot
    rw [hs s (h.plain s (by simp [hslot]))]
    exact h.slot s k hhid hslot
  · intro s hhid hslot hspec
    rw [hs s (by simpa using fun h' => hspec (.inl h'))]
    exact h.global s hhid hslot hspec

theorem Rel.pointIt (h : R.Rel sc F σ) (v : Val) : R.Rel sc F (σ.pointIt v) :=
  h.congr (.pointIt σ v)

theorem Rel.clearIt (h : R.Rel sc F σ) : R.Rel sc F σ.clearIt :=
  h.congr (.clearIt σ)

/-- An instruction that pushes the value of the tree-walker. -/
theorem Arrives.of_goes {cell : Cell} (hg : R.Goes p F T p' F (T ++ [w]))
    (hw : w.deref R.globals = .value cell) (hr : R.Rel sc F σ)
    (hl : ∀ d, leaves d ↔ d.Meets cell v.cell) :
    R.Arrives sc p p' F T σ v σ leaves :=
  ⟨F, w, cell, hg, hw, hl, hr, Kept.refl sc F σ⟩

/-- Code that comes first and leaves the operands alone. -/
theorem Arrives.after {p₁ : Nat} {σ₁ : Interp}
    (h : R.Arrives sc p₁ p' F' T σ₁ v σ' leaves)
    (hg : R.Goes p F T p₁ F' T) (hk : Kept sc F σ F' σ₁) :
    R.Arrives sc p p' F T σ v σ' leaves := by
  obtain ⟨F₁, w, cell, hg₁, hw, hl, hr, hk₁⟩ := h
  exact ⟨F₁, w, cell, hg.trans hg₁, hw, hl, hr, hk.trans hk₁⟩

/-- Code that follows and leaves the stack alone. -/
theorem Arrives.andThen {p₁ : Nat}
    (h : R.Arrives sc p p₁ F T σ v σ' leaves)
    (hg : ∀ F' T', R.Goes p₁ F' T' p' F' T') :
    R.Arrives sc p p' F T σ v σ' leaves := by
  obtain ⟨F₁, w, cell, hg₁, hw, hl, hr, hk₁⟩ := h
  exact ⟨F₁, w, cell, hg₁.trans (hg _ _), hw, hl, hr, hk₁⟩

theorem Arrives.at {q : Nat} (h : R.Arrives sc p q F T σ v σ' leaves)
    (hq : q = p') : R.Arrives sc p p' F T σ v σ' leaves := hq ▸ h

theorem Arrives.congr {leaves' : Demand → Prop}
    (h : R.Arrives sc p p' F T σ v σ' leaves)
    (hl : ∀ d, leaves' d ↔ leaves d) :
    R.Arrives sc p p' F T σ v σ' leaves' := by
  obtain ⟨F₁, w, cell, hg₁, hw, hl₁, hr, hk₁⟩ := h
  exact ⟨F₁, w, cell, hg₁, hw, fun d => (hl d).trans (hl₁ d), hr, hk₁⟩

theorem Arrives.congr_val {v' : Val}
    (h : R.Arrives sc p p' F T σ v σ' leaves) (hv : v'.cell = v.cell) :
    R.Arrives sc p p' F T σ v' σ' leaves := by
  obtain ⟨F₁, w, cell, hg₁, hw, hl₁, hr, hk₁⟩ := h
  exact ⟨F₁, w, cell, hg₁, hw, by rwa [hv], hr, hk₁⟩

theorem Arrives.clearIt (h : R.Arrives sc p p' F T σ v σ' leaves) :
    R.Arrives sc p p' F T σ v σ'.clearIt leaves := by
  obtain ⟨F₁, w, cell, hg₁, hw, hl₁, hr, hk₁⟩ := h
  exact ⟨F₁, w, cell, hg₁, hw, hl₁, hr.clearIt, hk₁.congr (.clearIt σ')⟩

/-- The code of two parts, one after the other. -/
theorem Placed.fst (h : R.Placed sc c c' p) {c₁ : Compiler}
    (h₁ : Extends c c₁) (h₂ : Extends c₁ c') : R.Placed sc c c₁ p := by
  have hcode := h.code
  rw [h₁.emitted_trans h₂, code_append] at hcode
  exact ⟨hcode.1, h.links.of_pools h₂.pools, h.locals⟩

theorem Placed.snd (h : R.Placed sc c c' p) {c₁ : Compiler}
    (h₁ : Extends c c₁) (h₂ : Extends c₁ c') :
    R.Placed sc c₁ c' (p + (emitted c c₁).length) := by
  have hcode := h.code
  rw [h₁.emitted_trans h₂, code_append] at hcode
  exact ⟨hcode.2, h.links, h.locals.trans h₁.locals_eq.symm⟩

theorem emitted_emitOp (c : Compiler) (op : VmOpcode) :
    emitted c (c.emitOp op) = [op.toByte] :=
  emitted_of_code_eq (emitOp_code c op)

theorem Placed.op {op : VmOpcode} (h : R.Placed sc c (c.emitOp op) p) :
    R.Code p [op.toByte] := by
  have hcode := h.code
  rwa [emitted_emitOp] at hcode

/-- Where the slot of a variable is. -/
theorem Rel.slot_lt (h : R.Rel sc F σ) {s : Symbol} {k : Nat}
    (hs : sc.slot s = some k) : k < 65536 := by
  have hrange := (findLocalFrom_range hs).2
  have hfew := h.few
  simp only [NewLispNeo.maxLocals] at hfew
  omega

/-- The code of a variable. -/
theorem symbol_arrives {s : Symbol} (hsmall : R.Small)
    (hev : evaluateSymbol σ s = .value v) (hf : Readable R sc σ s)
    (hp : R.Placed sc c (compileSymbol R.ctx.compile s c) p)
    (hr : R.Rel sc F σ) :
    R.Arrives sc p
      (p + (emitted c (compileSymbol R.ctx.compile s c)).length) F T σ v
      σ (fun _ => True) := by
  have hv : v.cell = σ.contents s := by
    unfold evaluateSymbol at hev
    split at hev
    · cases hev
    · rw [← Outcome.value.inj hev, Val.ofSymbol_cell]
  have hslot : c.findLocal s = sc.slot s := by
    rw [Compiler.findLocal, Scope.slot, hp.locals]
  have hcode := hp.code
  have hlinks := hp.links
  unfold compileSymbol at hcode hlinks ⊢
  rw [hslot] at hcode hlinks ⊢
  cases hk : sc.slot s with
  | some k =>
      simp only [hk] at hcode hlinks ⊢
      rw [emitted_of_code_eq (emitLoadLocal_code c k)] at hcode ⊢
      obtain ⟨w, hw, hderef⟩ := hr.slot s k hf.1 hk
      exact .of_goes (goes_loadLocal hcode (hr.slot_lt hk) hw) hderef hr
        (by simp [hv])
  | none =>
      simp only [hk] at hcode hlinks ⊢
      by_cases hself : R.IsSelf s
      · have hself' : R.ctx.compile.selfSymbol = some s ∨ s.name = "self" :=
          hself
        rw [if_pos hself'] at hcode hlinks ⊢
        rw [emitted_emitOp] at hcode ⊢
        have hval := (hf.2 hk (.inr (.inr hself))).1
        rw [Run.global, if_pos hself] at hval
        exact .of_goes (goes_loadSelf hcode) (Val.temp_deref _ _) hr
          (by simp [hv, hval])
      · have hself' : ¬ (R.ctx.compile.selfSymbol = some s ∨
            s.name = "self") := hself
        rw [if_neg hself'] at hcode hlinks ⊢
        rw [emitted_of_code_eq (emitLoadGlobal_code c s)] at hcode ⊢
        have hsym := (addSymbol_eq c s).2
        obtain ⟨t, ht⟩ : (c.addSymbol s).2.symbols <+: R.bytecode.symbols :=
          hlinks.symbols
        have hidx : R.bytecode.symbols[(c.addSymbol s).1]? = some s := by
          have hlt := (List.getElem?_eq_some_iff.mp hsym).1
          rw [← ht, List.getElem?_append_left hlt, hsym]
        have hlt := (List.getElem?_eq_some_iff.mp hidx).1
        have hval : R.globals.contents s = σ.contents s ∧
            evaluateSymbol R.globals s =
              .value (Val.ofSymbol R.globals s) := by
          by_cases hspec : R.IsSpecial s
          · obtain ⟨hglob, hfreed⟩ := hf.2 hk hspec
            rw [Run.global, if_neg hself] at hglob
            refine ⟨hglob, if_neg ?_⟩
            rintro ⟨hit, hfr⟩
            simp [hfreed hit] at hfr
          · refine ⟨hr.global s hf.1 hk hspec, if_neg ?_⟩
            rintro ⟨hit, -⟩
            exact hspec (.inl (by simp [isAnaphoric, hit]))
        have hle := hsmall.symbols
        exact .of_goes (goes_loadGlobal hcode hidx (by omega) hval.2)
          (ofSymbol_deref _ _) hr (by simp [hv, hval.1])

/-- The code of a constant that the pool holds as itself. -/
theorem constant_arrives {k : Cell} (hsmall : R.Small)
    (hc : c.emitConstant R.ctx.compile.runtime k = .value c')
    (hf : Pooled R k) (hv : v.cell = k) (hp : R.Placed sc c c' p)
    (hr : R.Rel sc F σ) :
    R.Arrives sc p (p + (emitted c c').length) F T σ v σ
      (fun _ => True) := by
  simp only [emitConstant, Outcome.bind_eq_value_iff, Prod.exists,
    Outcome.value.injEq] at hc
  obtain ⟨i, c₁, hadd, rfl⟩ := hc
  obtain ⟨hcode₁, -, k', hk', hcase⟩ := addConstant_eq hadd
  have hem : emitted c ((c₁.emitOp .const).emitUint16 i) =
      VmOpcode.const.toByte :: operand i := by
    apply emitted_of_code_eq
    rw [emitUint16_code, emitOp_code, hcode₁]
    simp
  have hcode := hp.code
  rw [hem] at hcode ⊢
  obtain ⟨t, ht⟩ : c₁.constants <+: R.bytecode.constants :=
    hp.links.constants
  have hidx : R.bytecode.constants[i]? = some k' := by
    have hlt := (List.getElem?_eq_some_iff.mp hk').1
    rw [← ht, List.getElem?_append_left hlt, hk']
  have hk : k' = k := by
    rcases hcase with h | ⟨-, hcmp⟩
    · exact h
    · exact hf k' (List.mem_of_getElem? hidx) hcmp
  have hlt := (List.getElem?_eq_some_iff.mp hidx).1
  have hle := hsmall.constants
  exact .of_goes (goes_const hcode hidx (by omega)) (Val.temp_deref _ _) hr
    (by simp [hv, hk])

/-- What stands in the code ends within it. -/
theorem code_length_le {bytes : List UInt8} (h : R.Code p bytes)
    (hne : bytes ≠ []) : p + bytes.length ≤ R.bytecode.code.length := by
  induction bytes generalizing p with
  | nil => exact absurd rfl hne
  | cons b bytes ih =>
      obtain ⟨hb, hrest⟩ := h
      have hlt := (List.getElem?_eq_some_iff.mp hb).1
      cases bytes with
      | nil => exact hlt
      | cons b' bytes =>
          have hle := ih hrest (by simp)
          simp only [List.length_cons] at hle ⊢
          omega

/-- Two ways: the code of one part, with a jump around it in front and a jump
around the other one behind it, and the code of that. -/
structure Branches (R : Run) (sc : Scope) (op : VmOpcode)
    (c c₁ c₂ c₃ : Compiler) (p q r : Nat) : Prop where
  test : R.Placed sc c c₁ p
  skip : R.Code q (jumpBytes op
    ((emitted (c₁.emitJump op).2 c₂).length + 3 : Nat))
  way : R.Placed sc (c₁.emitJump op).2 c₂ (q + 3)
  leave : R.Code r (jumpBytes .jump (emitted
    ((c₂.emitJump .jump).2.patchJump (c₁.emitJump op).1) c₃).length)
  other : R.Placed sc
    ((c₂.emitJump .jump).2.patchJump (c₁.emitJump op).1) c₃ (r + 3)
  fst_eq : q = p + (emitted c c₁).length
  snd_eq : r = q + 3 + (emitted (c₁.emitJump op).2 c₂).length
  near : (emitted (c₁.emitJump op).2 c₂).length + 3 < 32768 ∧
    (emitted ((c₂.emitJump .jump).2.patchJump (c₁.emitJump op).1)
      c₃).length < 32768
  end_eq : p + (emitted c (c₃.patchJump (c₂.emitJump .jump).1)).length =
    r + 3 + (emitted ((c₂.emitJump .jump).2.patchJump (c₁.emitJump op).1)
      c₃).length

theorem Placed.branches {op : VmOpcode} {c₁ c₂ c₃ : Compiler}
    (hsmall : R.Small)
    (h : R.Placed sc c (c₃.patchJump (c₂.emitJump .jump).1) p)
    (h₁ : Extends c c₁) (h₂ : Extends (c₁.emitJump op).2 c₂)
    (h₃ : Extends ((c₂.emitJump .jump).2.patchJump (c₁.emitJump op).1) c₃) :
    ∃ q r, R.Branches sc op c c₁ c₂ c₃ p q r := by
  have hshape := emitted_branches h₁ h₂ h₃
  have hcode := h.code
  rw [hshape] at hcode
  simp only [code_append, Machine.jumpBytes_length] at hcode
  obtain ⟨htest, hskip, hway, hleave, hother⟩ := hcode
  have hlen := code_length_le h.code (by rw [hshape]; simp [jumpBytes])
  have hsize := hsmall.code
  have hl₃ : R.Links c₃ := h.links.of_pools (pools_patchJump _ _)
  have hl₂' : R.Links (c₂.emitJump .jump).2 :=
    (hl₃.of_pools h₃.pools).of_pools (pools_patchJump _ _)
  have hl₂ : R.Links c₂ := hl₂'.of_pools (emitJump_extends c₂ .jump).pools
  have hl₁' : R.Links (c₁.emitJump op).2 := hl₂.of_pools h₂.pools
  have hl₁ : R.Links c₁ := hl₁'.of_pools (emitJump_extends c₁ op).pools
  have hloc₁ : sc.locals = (c₁.emitJump op).2.locals :=
    h.locals.trans (h₁.trans (emitJump_extends c₁ op)).locals_eq.symm
  have hloc₂ : sc.locals =
      ((c₂.emitJump .jump).2.patchJump (c₁.emitJump op).1).locals :=
    hloc₁.trans (h₂.trans (emitJump_extends c₂ .jump)).locals_eq.symm
  rw [hshape] at hlen
  simp only [List.length_append, Machine.jumpBytes_length] at hlen
  refine ⟨_, _, ⟨htest, hl₁, h.locals⟩, hskip, ⟨hway, hl₂, hloc₁⟩, hleave,
    ⟨hother, hl₃, hloc₂⟩, rfl, rfl, ⟨by omega, by omega⟩, ?_⟩
  rw [hshape]
  simp only [List.length_append, Machine.jumpBytes_length]
  omega

variable {ev : Evaluator} {follows : Scope → Interp → Cell → Prop}
  {leavesOf : Demand → Interp → Cell → Prop} {isTail : Bool} {l : List Cell}

/-- The code of a sequence. -/
theorem body_arrives (hsim : R.Simulates ev follows leavesOf)
    (hc : compileBody R.ctx.compile l isTail c = .value c')
    (hev : evaluateBlockFrom ev σ w l = .value (v, σ'))
    (hnil : l = [] → w.cell = .nil) (hf : BlockFollows ev follows sc σ l)
    (hp : R.Placed sc c c' p) (hr : R.Rel sc F σ) :
    R.Arrives sc p (p + (emitted c c').length) F T σ v σ'
      (BlockLeaves ev leavesOf · σ l) := by
  induction l generalizing c p F σ w with
  | nil =>
      simp only [compileBody, Outcome.value.injEq] at hc
      simp only [evaluateBlockFrom, Outcome.value.injEq, Prod.mk.injEq] at hev
      obtain ⟨rfl, rfl⟩ := hev
      subst hc
      have hcode := hp.op
      rw [emitted_emitOp]
      exact .of_goes (goes_nil hcode) rfl hr
        (by simp [BlockLeaves, hnil rfl])
  | cons e es ih =>
      simp only [evaluateBlockFrom, Outcome.bind_eq_value_iff,
        Prod.exists] at hev
      obtain ⟨v₁, σ₁, he, hes⟩ := hev
      simp only [BlockFollows, After.of_value he] at hf
      obtain ⟨hfe, hfes⟩ := hf
      cases es with
      | nil =>
          simp only [evaluateBlockFrom, Outcome.value.injEq,
            Prod.mk.injEq] at hes
          obtain ⟨rfl, rfl⟩ := hes
          simp only [compileBody] at hc
          exact hsim T hc he hfe hp hr
      | cons e' es =>
          simp only [compileBody, Outcome.bind_eq_value_iff] at hc
          obtain ⟨c₁, hc₁, hc₂⟩ := hc
          have hext₁ := compileExpr_extends hc₁
          have hext₂ := compileBody_ext hc₂
          have hpop := (Extends.refl c₁).emitOp .pop
          obtain ⟨F₁, w₁, cell, hg, -, -, hr₁, hk₁⟩ := hsim T hc₁ he hfe
            (hp.fst hext₁ (hpop.trans hext₂)) hr
          have hp₁ := hp.snd hext₁ (hpop.trans hext₂)
          have hgpop := goes_pop (F := F₁) (T := T) (v := w₁)
            (hp₁.fst hpop hext₂).op
          have hp₂ := hp₁.snd hpop hext₂
          rw [emitted_emitOp] at hp₂
          have hrest := ih hc₂ hes (by simp) hfes hp₂ hr₁
          rw [hext₁.emitted_trans (hpop.trans hext₂),
            hpop.emitted_trans hext₂, emitted_emitOp]
          refine ((hrest.after (hg.trans hgpop) hk₁).congr fun d => ?_).at ?_
          · simp only [BlockLeaves, After.of_value he]
          · simp only [List.length_append]
            omega

end Run

end NewLispNeo
