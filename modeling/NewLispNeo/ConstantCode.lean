/-
Compiling an expression emits an `OP_CONST` for each of its literals, in their order, with
the place of the literal in the pool of constants.
-/
import NewLispNeo.Literals

namespace NewLispNeo

open Compiler Interning

/-- The operand bytes of an instruction with a 16-bit operand that is no `OP_CONST` stand
at `pos`, in instructions with these opcodes from `p` on. -/
def JumpOperand (p : Nat) (ops : List VmOpcode) (pos : Nat) : Prop :=
  ∃ before op after, ops = before ++ op :: after ∧ op ≠ .const ∧ op.operandWidth = 2 ∧
    pos = p + (before.map fun op => 1 + op.operandWidth).sum + 1

/-- Between two states the compiler emits an `OP_CONST` for each of the literals, and
leaves open the offsets of the jumps at `holes`. -/
structure Emits (rt : Runtime) (c : Compiler) (vals : List Cell) (holes : List Nat)
    (c' : Compiler) : Prop where
  constants_eq : c'.constants = (internAll (comparesEqual rt) c.constants vals).2
  code : ∃ instrs, c'.code = c.code ++ assemble instrs ∧ Sized instrs ∧
    constOperands instrs =
      (internAll (comparesEqual rt) c.constants vals).1.map (· % 65536) ∧
    ∀ pos ∈ holes, JumpOperand c.code.length (instrs.map Prod.fst) pos

variable {rt : Runtime} {c c₁ c' c'' : Compiler} {vals more : List Cell} {holes : List Nat}

theorem length_assemble {instrs : List (VmOpcode × List UInt8)} (h : Sized instrs) :
    (assemble instrs).length =
      ((instrs.map Prod.fst).map fun op => 1 + op.operandWidth).sum := by
  induction instrs with
  | nil => rfl
  | cons instr instrs ih =>
      obtain ⟨op, operand⟩ := instr
      obtain ⟨hwidth, hrest⟩ := sized_cons.mp h
      rw [assemble_cons]
      simp only [List.cons_append, List.length_cons, List.length_append, List.map_cons,
        List.sum_cons, hwidth, ih hrest]
      omega

/-- The bytes of an operand are replaced. -/
theorem set_operand {l r : List UInt8} {x y lo hi : UInt8} {pos : Nat}
    (hpos : pos = l.length) :
    ((l ++ x :: y :: r).set pos lo).set (pos + 1) hi = l ++ lo :: hi :: r := by
  subst hpos
  rw [List.set_append_right _ _ (Nat.le_refl _), List.set_append_right _ _ (Nat.le_succ _)]
  simp

theorem JumpOperand.append {p pos : Nat} {ops more : List VmOpcode}
    (h : JumpOperand p ops pos) : JumpOperand p (ops ++ more) pos := by
  obtain ⟨before, op, after, rfl, hop, hwidth, hpos⟩ := h
  exact ⟨before, op, after ++ more, by simp, hop, hwidth, hpos⟩

namespace Emits

theorem refl (c : Compiler) : Emits rt c [] [] c :=
  ⟨rfl, [], by simp, by simp [Sized], rfl, by simp⟩

/-- The relation is about the code and the constants alone. -/
theorem congr (h : Emits rt c vals holes c') (hcode : c''.code = c'.code)
    (hconstants : c''.constants = c'.constants) : Emits rt c vals holes c'' :=
  ⟨hconstants.trans h.constants_eq, by rw [hcode]; exact h.code⟩

theorem mono (h : Emits rt c vals holes c') (fewer : List Nat)
    (hfewer : ∀ pos ∈ fewer, pos ∈ holes) : Emits rt c vals fewer c' := by
  obtain ⟨instrs, hcode, hsized, hconst, hholes⟩ := h.code
  exact ⟨h.constants_eq, instrs, hcode, hsized, hconst,
    fun pos hpos => hholes pos (hfewer pos hpos)⟩

/-- No offset is left open. -/
theorem close (h : Emits rt c vals holes c') : Emits rt c vals [] c' := h.mono [] (by simp)

theorem trans (h : Emits rt c vals holes c₁) (h' : Emits rt c₁ more [] c') :
    Emits rt c (vals ++ more) holes c' := by
  obtain ⟨instrs, hcode, hsized, hconst, hholes⟩ := h.code
  obtain ⟨instrs', hcode', hsized', hconst', -⟩ := h'.code
  rw [h.constants_eq] at hconst'
  refine ⟨?_, instrs ++ instrs', ?_, sized_append.mpr ⟨hsized, hsized'⟩, ?_, ?_⟩
  · rw [h'.constants_eq, internAll_append, h.constants_eq]
  · rw [hcode', hcode, assemble_append, List.append_assoc]
  · rw [constOperands_append, hconst, hconst', internAll_append, List.map_append]
  · intro pos hpos
    rw [List.map_append]
    exact (hholes pos hpos).append

/-- An instruction other than `OP_CONST`. -/
theorem emit (h : Emits rt c vals holes c') (op : VmOpcode) (operand : List UInt8)
    (hop : op ≠ .const) (hwidth : operand.length = op.operandWidth)
    (hcode : c''.code = c'.code ++ op.toByte :: operand)
    (hconstants : c''.constants = c'.constants) : Emits rt c vals holes c'' := by
  have hone : Emits rt c' [] [] c'' := by
    refine ⟨hconstants, [(op, operand)], by simpa using hcode, ?_, ?_, by simp⟩
    · exact sized_cons.mpr ⟨hwidth, by simp [Sized]⟩
    · simp [constOperands, hop, internAll_nil]
  simpa using h.trans hone

theorem emitOp (h : Emits rt c vals holes c') (op : VmOpcode)
    (hop : op ≠ .const ∧ op.operandWidth = 0) : Emits rt c vals holes (c'.emitOp op) :=
  h.emit op [] hop.1 (by rw [hop.2]; rfl) rfl rfl

theorem emitUint16 (h : Emits rt c vals holes c') (op : VmOpcode) (n : Nat)
    (hop : op ≠ .const ∧ op.operandWidth = 2) :
    Emits rt c vals holes ((c'.emitOp op).emitUint16 n) :=
  h.emit op (Machine.operand n) hop.1 (by rw [hop.2]; rfl) (by simp) rfl

/-- A jump leaves its offset open. -/
theorem emitJump (h : Emits rt c vals holes c') (op : VmOpcode)
    (hop : op ≠ .const ∧ op.operandWidth = 2) :
    Emits rt c vals ((c'.emitJump op).1 :: holes) (c'.emitJump op).2 := by
  obtain ⟨instrs, hcode, hsized, hconst, hholes⟩ := h.code
  refine ⟨h.constants_eq, instrs ++ [(op, Machine.operand 0)], ?_, ?_, ?_, ?_⟩
  · rw [emitJump_code, hcode, assemble_append]
    simp [Machine.jumpBytes]
  · exact sized_append.mpr ⟨hsized, sized_cons.mpr ⟨by rw [hop.2]; rfl, by simp [Sized]⟩⟩
  · simpa [constOperands, hop.1] using hconst
  · intro pos hpos
    rw [List.map_append]
    rcases List.mem_cons.mp hpos with rfl | hpos
    · refine ⟨instrs.map Prod.fst, op, [], rfl, hop.1, hop.2, ?_⟩
      rw [emitJump_fst, hcode, List.length_append, length_assemble hsized]
    · exact (hholes pos hpos).append

theorem emitJump_last (h : Emits rt c vals holes c') (op : VmOpcode)
    (hop : op ≠ .const ∧ op.operandWidth = 2) :
    Emits rt c vals (holes ++ [(c'.emitJump op).1]) (c'.emitJump op).2 := by
  refine (h.emitJump op hop).mono _ fun pos hpos => ?_
  rcases List.mem_append.mp hpos with hpos | hpos
  · exact List.mem_cons_of_mem _ hpos
  · rw [List.mem_singleton.mp hpos]
    exact List.mem_cons_self

/-- An offset is filled in. -/
theorem setJump (h : Emits rt c vals holes c') {pos : Nat} (hpos : pos ∈ holes)
    (offset : Int) : Emits rt c vals holes (c'.setJump pos offset) := by
  obtain ⟨instrs, hcode, hsized, hconst, hholes⟩ := h.code
  obtain ⟨before, op, after, hops, hop, hwidth, hat⟩ := hholes pos hpos
  obtain ⟨instrs₁, rest, rfl, hbefore, hrest⟩ := List.map_eq_append_iff.mp hops
  obtain ⟨⟨op', operand⟩, instrs₂, rfl, rfl, hafter⟩ := List.map_eq_cons_iff.mp hrest
  obtain ⟨hsized₁, hsized'⟩ := sized_append.mp hsized
  obtain ⟨hoperand, hsized₂⟩ := sized_cons.mp hsized'
  rw [hwidth] at hoperand
  obtain ⟨x, y, rfl⟩ := List.length_eq_two.mp hoperand
  refine ⟨h.constants_eq,
    instrs₁ ++ (op', [lowByte offset, highByte offset]) :: instrs₂, ?_, ?_, ?_, ?_⟩
  · have hlength := length_assemble hsized₁
    rw [hbefore] at hlength
    have hbytes : c'.code = (c.code ++ assemble instrs₁ ++ [op'.toByte]) ++
        x :: y :: assemble instrs₂ := by
      rw [hcode, assemble_append, assemble_cons]
      simp
    show ((c'.code.set pos _).set (pos + 1) _) = _
    rw [hbytes, set_operand]
    · simp
    · rw [hat, List.length_append, List.length_append, hlength]
      simp
  · exact sized_append.mpr ⟨hsized₁, sized_cons.mpr ⟨by rw [hwidth]; rfl, hsized₂⟩⟩
  · rw [← hconst]
    simp [constOperands, hop]
  · simpa using hholes

theorem patchJump (h : Emits rt c vals holes c') {pos : Nat} (hpos : pos ∈ holes) :
    Emits rt c vals holes (c'.patchJump pos) := h.setJump hpos _

theorem patchJumps (h : Emits rt c vals holes c') {jumps : List Nat}
    (hjumps : ∀ pos ∈ jumps, pos ∈ holes) : Emits rt c vals holes (c'.patchJumps jumps) := by
  induction jumps generalizing c' with
  | nil => exact h
  | cons pos jumps ih =>
      have hpatched := h.patchJump (hjumps pos List.mem_cons_self)
      exact ih hpatched fun pos hpos => hjumps pos (List.mem_cons_of_mem _ hpos)

theorem jumpBack (h : Emits rt c vals holes c') (loopStart : Nat) :
    Emits rt c vals holes (c'.jumpBack loopStart) :=
  ((h.emitJump .jump (by decide)).setJump List.mem_cons_self _).mono holes
    fun _ => List.mem_cons_of_mem _

theorem emitLoadLocal (h : Emits rt c vals holes c') (slot : Nat) :
    Emits rt c vals holes (c'.emitLoadLocal slot) := by
  unfold Compiler.emitLoadLocal
  split
  · exact h.emitOp _ (by decide)
  · exact h.emitOp _ (by decide)
  · exact h.emitOp _ (by decide)
  · exact h.emitOp _ (by decide)
  · exact h.emitUint16 _ _ (by decide)

theorem emitStoreLocal (h : Emits rt c vals holes c') (slot : Nat) :
    Emits rt c vals holes (c'.emitStoreLocal slot) := by
  unfold Compiler.emitStoreLocal
  split
  · exact h.emitOp _ (by decide)
  · exact h.emitOp _ (by decide)
  · exact h.emitOp _ (by decide)
  · exact h.emitOp _ (by decide)
  · exact h.emitUint16 _ _ (by decide)

theorem addSymbol (h : Emits rt c vals holes c') (s : Symbol) :
    Emits rt c vals holes (c'.addSymbol s).2 := by
  unfold Compiler.addSymbol
  split
  · exact h
  · exact h.congr rfl rfl

theorem emitLoadGlobal (h : Emits rt c vals holes c') (s : Symbol) :
    Emits rt c vals holes (c'.emitLoadGlobal s) :=
  (h.addSymbol s).emitUint16 _ _ (by decide)

theorem emitAssign (h : Emits rt c vals holes c') (slot : Option Nat) (s : Symbol) :
    Emits rt c vals holes (c'.emitAssign slot s) := by
  have hdup := h.emitOp .dup (by decide)
  cases slot with
  | none => exact (hdup.addSymbol s).emitUint16 _ _ (by decide)
  | some slot => exact hdup.emitStoreLocal _

theorem emitCall (h : Emits rt c vals holes c') (op : VmOpcode) (argc : Nat)
    (hop : op ≠ .const ∧ op.operandWidth = 1) :
    Emits rt c vals holes (c'.emitCall op argc) :=
  h.emit op [UInt8.ofNat argc] hop.1 (by rw [hop.2]; rfl)
    (by simp [Compiler.emitCall, emitByte]) rfl

theorem exitAnd (h : Emits rt c vals holes c') {jumps : List Nat}
    (hjumps : ∀ pos ∈ jumps, pos ∈ holes) : Emits rt c vals holes (c'.exitAnd jumps) := by
  unfold Compiler.exitAnd
  split
  · exact h
  · have hend := h.emitJump .jump (by decide)
    have hpatched := hend.patchJumps fun pos hpos => List.mem_cons_of_mem _ (hjumps pos hpos)
    have hnil := hpatched.emitOp .nil (by decide)
    exact (hnil.patchJump List.mem_cons_self).mono holes fun _ => List.mem_cons_of_mem _

theorem compileSymbol (h : Emits rt c vals holes c') (ctx : CompileContext) (s : Symbol) :
    Emits rt c vals holes (compileSymbol ctx s c') := by
  unfold NewLispNeo.compileSymbol
  split
  · exact h.emitLoadLocal _
  · split
    · exact h.emitOp _ (by decide)
    · exact h.emitLoadGlobal _

theorem addLocal (h : Emits rt c vals holes c') {s : Option Symbol} {slot : Nat}
    (hadd : c'.addLocal s = .value (slot, c'')) : Emits rt c vals holes c'' := by
  obtain ⟨-, -, rfl⟩ := addLocal_eq hadd
  exact h.congr rfl rfl

end Emits

theorem findConstant_eq {val : Cell} {i : Nat} {l : List Cell} {found : Option Nat}
    (h : findConstant rt val i l = .value found) :
    found = (l.findIdx? (comparesEqual rt · val)).map (· + i) := by
  induction l generalizing i with
  | nil => exact (Outcome.value.inj h).symm
  | cons k l ih =>
      rw [findConstant] at h
      rw [List.findIdx?_cons]
      cases hcompare : compareCells rt k val with
      | value result =>
          rw [hcompare] at h
          have hequal : comparesEqual rt k val = decide (result = 0) := by
            rw [comparesEqual, hcompare]
          by_cases hresult : result = 0
          · simp only [if_pos hresult, Outcome.value.injEq] at h
            simp [hequal, hresult, ← h]
          · simp only [if_neg hresult] at h
            rw [ih h]
            simp only [hequal, hresult, decide_false, Bool.false_eq_true, if_false,
              Option.map_map]
            congr 1
            funext j
            simp only [Function.comp_apply]
            omega
      | error _ | undefined | timeout =>
          rw [hcompare] at h
          cases h

/-- A constant gets the place it has in the pool. -/
theorem addConstant_intern {val : Cell} {i : Nat}
    (h : c.addConstant rt val = .value (i, c')) :
    i = (intern (comparesEqual rt) c.constants val).1 ∧
      c'.constants = (intern (comparesEqual rt) c.constants val).2 := by
  simp only [addConstant, Outcome.bind_eq_value_iff] at h
  obtain ⟨val', hcopy, found, hfound, h⟩ := h
  have hval : val' = val := by
    unfold copyToGen1 at hcopy
    split at hcopy
    · cases hcopy
    · exact (Outcome.value.inj hcopy).symm
  rw [hval] at hfound h
  have hplace := findConstant_eq hfound
  unfold intern
  cases hindex : c.constants.findIdx? (comparesEqual rt · val) with
  | none =>
      rw [hindex, Option.map_none] at hplace
      rw [hplace] at h
      simp only [Outcome.value.injEq, Prod.mk.injEq] at h
      obtain ⟨rfl, rfl⟩ := h
      exact ⟨rfl, rfl⟩
  | some j =>
      rw [hindex] at hplace
      simp only [hplace, Option.map_some, Nat.add_zero, Outcome.value.injEq,
        Prod.mk.injEq] at h
      obtain ⟨rfl, rfl⟩ := h
      exact ⟨rfl, rfl⟩

theorem operandValue_operand (n : Nat) : operandValue (Machine.operand n) = n % 65536 := by
  have hbytes := Machine.lowByte_add_highByte n
  change (lowByte n).toNat + 256 * (highByte n).toNat = n % 65536
  omega

theorem emitConstant_emits {val : Cell} (h : c.emitConstant rt val = .value c') :
    Emits rt c [val] [] c' := by
  simp only [emitConstant, Outcome.bind_eq_value_iff, Outcome.value.injEq] at h
  obtain ⟨⟨i, c₁⟩, hadd, rfl⟩ := h
  obtain ⟨hplace, hpool⟩ := addConstant_intern hadd
  have hall : internAll (comparesEqual rt) c.constants [val] =
      ([(intern (comparesEqual rt) c.constants val).1],
        (intern (comparesEqual rt) c.constants val).2) := rfl
  refine ⟨?_, [(.const, Machine.operand i)], ?_, ?_, ?_, by simp⟩
  · rw [hall]
    exact hpool
  · rw [emitUint16_code, emitOp_code, (addConstant_eq hadd).1]
    simp
  · exact sized_cons.mpr ⟨rfl, by simp [Sized]⟩
  · rw [hall, ← hplace]
    simp [constOperands, operandValue_operand]

end NewLispNeo
