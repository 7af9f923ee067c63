/-
The bytes each part of the compiler adds to the code, jumps filled in, and what
the pools hold at the indices it emits.
-/
import NewLispNeo.Growth
import NewLispNeo.Instructions

namespace NewLispNeo

open Machine (operand jumpBytes loadLocalBytes storeLocalBytes)

namespace Compiler

/-- The code between two states of the compiler. -/
def emitted (c c' : Compiler) : List UInt8 := c'.code.drop c.code.length

variable {P : Symbol → Prop} {c c' c'' : Compiler}

theorem code_eq_of_prefix (h : c.code <+: c'.code) :
    c'.code = c.code ++ emitted c c' := by
  obtain ⟨t, ht⟩ := h
  simp [emitted, ← ht]

theorem GrowsBy.code_eq (h : GrowsBy P c c') : c'.code = c.code ++ emitted c c' :=
  code_eq_of_prefix h.code

theorem ExtendsBy.code_eq (h : ExtendsBy P c c') :
    c'.code = c.code ++ emitted c c' := code_eq_of_prefix h.code

theorem emitted_of_code_eq {bytes : List UInt8}
    (h : c'.code = c.code ++ bytes) : emitted c c' = bytes := by
  simp [emitted, h]

/-- Code emitted in two parts. -/
theorem GrowsBy.emitted_trans (h : GrowsBy P c c') (h' : GrowsBy P c' c'') :
    emitted c c'' = emitted c c' ++ emitted c' c'' := by
  apply emitted_of_code_eq
  rw [h'.code_eq, h.code_eq, List.append_assoc]

theorem ExtendsBy.emitted_trans (h : ExtendsBy P c c') (h' : ExtendsBy P c' c'') :
    emitted c c'' = emitted c c' ++ emitted c' c'' :=
  h.toGrows.emitted_trans h'.toGrows

@[simp] theorem emitted_self (c : Compiler) : emitted c c = [] := by
  simp [emitted]

@[simp] theorem emitOp_code (c : Compiler) (op : VmOpcode) :
    (c.emitOp op).code = c.code ++ [op.toByte] := rfl

@[simp] theorem emitUint16_code (c : Compiler) (n : Nat) :
    (c.emitUint16 n).code = c.code ++ operand n := by
  simp [emitUint16, emitByte, operand]

@[simp] theorem emitJump_code (c : Compiler) (op : VmOpcode) :
    (c.emitJump op).2.code = c.code ++ jumpBytes op 0 := by
  simp [emitJump, jumpBytes]

@[simp] theorem emitJump_fst (c : Compiler) (op : VmOpcode) :
    (c.emitJump op).1 = c.code.length + 1 := rfl

@[simp] theorem emitLoadLocal_code (c : Compiler) (slot : Nat) :
    (c.emitLoadLocal slot).code = c.code ++ loadLocalBytes slot := by
  match slot with
  | 0 | 1 | 2 | 3 => rfl
  | slot + 4 => simp [emitLoadLocal, loadLocalBytes]

@[simp] theorem emitStoreLocal_code (c : Compiler) (slot : Nat) :
    (c.emitStoreLocal slot).code = c.code ++ storeLocalBytes slot := by
  match slot with
  | 0 | 1 | 2 | 3 => rfl
  | slot + 4 => simp [emitStoreLocal, storeLocalBytes]

@[simp] theorem restoreLocals_code (c : Compiler) (n : Nat) :
    (c.restoreLocals n).code = c.code := rfl

/-- Filling in the offset of the jump that stands before `mid`. -/
theorem setJump_code {pre mid : List UInt8} {op : VmOpcode} {o : Int}
    (h : c.code = pre ++ jumpBytes op o ++ mid) {pos : Nat}
    (hpos : pos = pre.length + 1) (offset : Int) :
    (c.setJump pos offset).code = pre ++ jumpBytes op offset ++ mid := by
  subst hpos
  simp only [setJump, h, jumpBytes, operand, List.append_assoc]
  rw [List.set_append_right _ _ (by omega), List.set_append_right _ _ (by omega)]
  simp [show pre.length + 1 + 1 - pre.length = 2 by omega]

theorem patchJump_code {pre mid : List UInt8} {op : VmOpcode} {o : Int}
    (h : c.code = pre ++ jumpBytes op o ++ mid) {pos : Nat}
    (hpos : pos = pre.length + 1) :
    (c.patchJump pos).code = pre ++ jumpBytes op mid.length ++ mid := by
  rw [patchJump, setJump_code h hpos]
  congr 3
  simp [h, hpos]
  omega

theorem emitJump_extends (c : Compiler) (op : VmOpcode) :
    Extends c (c.emitJump op).2 := (Extends.refl c).emitJump op

theorem jumpBack_code (c : Compiler) (loopStart : Nat) :
    (c.jumpBack loopStart).code = c.code ++
      jumpBytes .jump (loopStart - (c.code.length + 3) : Int) := by
  have h : (c.emitJump .jump).2.code = c.code ++ jumpBytes .jump 0 ++ [] := by
    simp
  have hoff : (loopStart - (c.code.length + 1 + 2) : Int) =
      loopStart - (c.code.length + 3) := by omega
  have h' := setJump_code h (emitJump_fst c .jump)
    (loopStart - (c.code.length + 3) : Int)
  simpa [jumpBack, hoff] using h'

theorem findConstant_some {rt : Runtime} {val : Cell} {i j : Nat}
    {l : List Cell} (h : findConstant rt val i l = .value (some j)) :
    i ≤ j ∧ ∃ k, l[j - i]? = some k ∧ compareCells rt k val = .value 0 := by
  induction l generalizing i with
  | nil => simp [findConstant] at h
  | cons k l ih =>
      unfold findConstant at h
      split at h
      · rename_i result hk
        split at h
        · rename_i h0
          simp only [Outcome.value.injEq, Option.some.injEq] at h
          subst h
          exact ⟨le_rfl, k, by simp, by rw [hk, h0]⟩
        · obtain ⟨hle, k', hk', hc⟩ := ih h
          refine ⟨by omega, k', ?_, hc⟩
          rw [show j - i = (j - (i + 1)) + 1 by omega]
          simpa using hk'
      · cases h

/-- The constant at the index `addConstant` returns compares equal to the one
that was asked for. -/
theorem addConstant_eq {rt : Runtime} {val : Cell} {i : Nat}
    (h : c.addConstant rt val = .value (i, c')) :
    c'.code = c.code ∧ losesDigits val = false ∧
      ∃ k, c'.constants[i]? = some k ∧
        (k = val ∨ k ∈ c.constants ∧ compareCells rt k val = .value 0) := by
  simp only [addConstant, Outcome.bind_eq_value_iff] at h
  obtain ⟨val', hcopy, found, hfound, h⟩ := h
  have hval : losesDigits val = false ∧ val' = val := by
    unfold copyToGen1 at hcopy
    split at hcopy
    · cases hcopy
    · exact ⟨by simp_all, (Outcome.value.inj hcopy).symm⟩
  obtain ⟨hbig, rfl⟩ := hval
  cases found with
  | none =>
      simp only [Outcome.value.injEq, Prod.mk.injEq] at h
      obtain ⟨rfl, rfl⟩ := h
      exact ⟨rfl, hbig, val', by simp, .inl rfl⟩
  | some j =>
      simp only [Outcome.value.injEq, Prod.mk.injEq] at h
      obtain ⟨rfl, rfl⟩ := h
      obtain ⟨-, k, hk, hc⟩ := findConstant_some hfound
      simp only [Nat.sub_zero] at hk
      exact ⟨rfl, hbig, k, hk, .inr ⟨List.mem_of_getElem? hk, hc⟩⟩

theorem addSymbol_eq (c : Compiler) (s : Symbol) :
    (c.addSymbol s).2.code = c.code ∧
      (c.addSymbol s).2.symbols[(c.addSymbol s).1]? = some s := by
  unfold addSymbol
  split
  · rename_i h
    exact ⟨rfl, by simp [List.getElem?_idxOf h]⟩
  · simp

@[simp] theorem emitLoadGlobal_code (c : Compiler) (s : Symbol) :
    (c.emitLoadGlobal s).code = c.code ++
      VmOpcode.loadGlobal.toByte :: operand (c.addSymbol s).1 := by
  simp [emitLoadGlobal, (addSymbol_eq c s).1]

end Compiler

end NewLispNeo
