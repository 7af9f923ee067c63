/-
How the compiler lays out structured code: the bytes of each item stand where
the layout has it, and the offsets filled in are those of its jumps.
-/
import NewLispNeo.ExprCode
import NewLispNeo.FormCode

namespace NewLispNeo

open Compiler StructuredCode
open Machine (operand jumpBytes loadLocalBytes storeLocalBytes)

/-- The operand of an instruction whose argument is in its bytes. -/
def Instr.argBytes (i : Instr) : Option (List UInt8) :=
  match i.op with
  | .loadLocal | .storeLocal => some (operand i.arg)
  | .call | .callSelf | .tailCall | .tailCallSelf => some [UInt8.ofNat i.arg]
  | _ => none

/-- The bytes of an instruction stand at `r`. -/
def Instr.Stands (i : Instr) (bytes : List UInt8) (r : Nat) : Prop :=
  ∃ o, o.length = i.op.operandWidth ∧ CodeAt bytes r (i.op.toByte :: o) ∧
    ∀ arg, i.argBytes = some arg → o = arg

/-- The bytes of an item stand at `r`, a jump with the offset to its target. -/
def ItemStands (bytes : List UInt8) (r : Nat) :
    Item Instr VmOpcode → Prop
  | .instr i => i.Stands bytes r
  | .jump op target => CodeAt bytes r (jumpBytes op (target - (r + 3) : Int))

/-- Where the offset of a jump stands, and its target. -/
def Meant (xs : List (Nat × Item Instr VmOpcode)) (j : Nat × Int) : Prop :=
  ∃ r op t, (r, Item.jump op t) ∈ xs ∧ j = (r + 1, (t : Int))

theorem meant_append {xs ys : List (Nat × Item Instr VmOpcode)}
    {j : Nat × Int} : Meant (xs ++ ys) j ↔ Meant xs j ∨ Meant ys j := by
  constructor
  · rintro ⟨r, op, t, hmem, rfl⟩
    rcases List.mem_append.mp hmem with h | h
    · exact .inl ⟨r, op, t, h, rfl⟩
    · exact .inr ⟨r, op, t, h, rfl⟩
  · rintro (⟨r, op, t, h, rfl⟩ | ⟨r, op, t, h, rfl⟩)
    · exact ⟨r, op, t, List.mem_append_left _ h, rfl⟩
    · exact ⟨r, op, t, List.mem_append_right _ h, rfl⟩

theorem meant_jump {r t : Nat} {op : VmOpcode} {j : Nat × Int} :
    Meant [(r, .jump op t)] j ↔ j = (r + 1, (t : Int)) := by
  constructor
  · rintro ⟨r', op', t', hmem, rfl⟩
    simp only [List.mem_singleton, Prod.mk.injEq, Item.jump.injEq] at hmem
    obtain ⟨rfl, -, rfl⟩ := hmem
    rfl
  · rintro rfl
    exact ⟨_, _, _, List.mem_singleton.mpr rfl, rfl⟩

theorem not_meant_instr {r : Nat} {i : Instr} {j : Nat × Int} :
    ¬ Meant [(r, .instr i)] j := by
  rintro ⟨r', op', t', hmem, -⟩
  simp at hmem

namespace Code

/-- The size of code in bytes. -/
abbrev bytes (code : Code) : Nat := code.size Instr.width jumpWidth

/-- The items of code laid out from `p` on. -/
abbrev laidOut (code : Code) (p : Nat) (exits : List Nat) :
    List (Nat × Item Instr VmOpcode) := code.items Instr.width jumpWidth p exits

end Code

namespace Compiler

/-- The frame has the slots of `code`, if it has those in scope. -/
def Slots (c c' : Compiler) (code : Code) : Prop :=
  c.locals.length ≤ c.maxLocals →
    c'.locals.length ≤ c'.maxLocals ∧ c.maxLocals ≤ c'.maxLocals ∧
      code.All fun i => i.slots ≤ c'.maxLocals

/-- Between two states the compiler lays out `code`, which leads nowhere else. -/
structure Lays (c c' : Compiler) (code : Code) : Prop where
  slots : Slots c c' code
  code_eq : c'.code = c.code ++ emitted c c'
  size_eq : (emitted c c').length = code.bytes
  stands : ∀ bytes exits, CodeAt bytes c.code.length (emitted c c') →
    ∀ x ∈ code.laidOut c.code.length exits, ItemStands bytes x.1 x.2
  jumps : ∃ new, c'.jumps = c.jumps ++ new ∧
    ∀ exits j, j ∈ new ↔ Meant (code.laidOut c.code.length exits) j

/-- Between two states the compiler lays out `code`, but for the offsets at
`holes`, which are to lead to label 0.  Once that is `t` bytes further on,
`shaped t` stands there. -/
structure LaysTo (c c' : Compiler) (holes : List Nat)
    (shaped : Nat → List UInt8) (code : Code) : Prop where
  slots : Slots c c' code
  code_eq : c'.code = c.code ++ emitted c c'
  size_eq : (emitted c c').length = code.bytes
  patchable : Patchable c.code.length holes (emitted c c') shaped
  stands : ∀ t bytes exits, CodeAt bytes c.code.length (shaped t) →
    ∀ x ∈ code.laidOut c.code.length ((c'.code.length + t) :: exits),
      ItemStands bytes x.1 x.2
  jumps : ∃ new, c'.jumps = c.jumps ++ new ∧ ∀ (t : Nat) exits j,
    j ∈ new ∨ (∃ pos ∈ holes, j = (pos, ((c'.code.length + t : Nat) : Int))) ↔
      Meant (code.laidOut c.code.length ((c'.code.length + t) :: exits)) j

variable {c c₁ c₂ c' : Compiler} {a b : Code} {holes : List Nat}
  {shaped : Nat → List UInt8}

theorem Slots.append (h : Slots c c₁ a) (h' : Slots c₁ c' b) :
    Slots c c' (a ++ b) := by
  intro hlocals
  obtain ⟨hlocals₁, hle₁, hall₁⟩ := h hlocals
  obtain ⟨hlocals₂, hle₂, hall₂⟩ := h' hlocals₁
  exact ⟨hlocals₂, hle₁.trans hle₂,
    hall₁.mono fun i hi => hi.trans hle₂, hall₂⟩

/-- A state with the slots of another. -/
theorem Slots.congr (h : Slots c c₁ a) (hlocals : c'.locals = c₁.locals)
    (hmax : c'.maxLocals = c₁.maxLocals) : Slots c c' a := by
  intro hscope
  rw [hlocals, hmax]
  exact h hscope

theorem slots_jump (c : Compiler) (op : VmOpcode) (label : Nat) :
    Slots c c (.br op label) := fun h => ⟨h, le_rfl, trivial⟩

theorem Lays.length_eq (h : Lays c c' a) :
    c'.code.length = c.code.length + a.bytes := by
  rw [h.code_eq, List.length_append, h.size_eq]

theorem LaysTo.length_eq (h : LaysTo c c' holes shaped a) :
    c'.code.length = c.code.length + a.bytes := by
  rw [h.code_eq, List.length_append, h.size_eq]

theorem LaysTo.shaped_length (h : LaysTo c c' holes shaped a) (t : Nat) :
    (shaped t).length = a.bytes := (h.patchable.length_eq t).trans h.size_eq

/-- Code that leads nowhere else has no holes. -/
theorem Lays.laysTo (h : Lays c c' a) :
    LaysTo c c' [] (fun _ => emitted c c') a where
  slots := h.slots
  code_eq := h.code_eq
  size_eq := h.size_eq
  patchable := .nil _ _
  stands _ bytes _ hcode := h.stands bytes _ hcode
  jumps := by
    obtain ⟨new, hnew, hmeant⟩ := h.jumps
    exact ⟨new, hnew, fun t exits j => by simpa using hmeant _ j⟩

theorem emitted_append (h : c₁.code = c.code ++ emitted c c₁)
    (h' : c'.code = c₁.code ++ emitted c₁ c') :
    emitted c c' = emitted c c₁ ++ emitted c₁ c' := by
  apply emitted_of_code_eq
  rw [h', h, List.append_assoc]

/-- A state that emits nothing. -/
theorem Lays.skip (c : Compiler) : Lays c c .skip where
  slots := fun h => ⟨h, le_rfl, trivial⟩
  code_eq := by simp
  size_eq := by simp [size]
  stands := by simp [items]
  jumps := ⟨[], by simp, by simp [items, Meant]⟩

/-- One part after the other. -/
theorem Lays.laysTo_append (h : Lays c c₁ a)
    (h' : LaysTo c₁ c' holes shaped b) :
    LaysTo c c' holes (fun t => emitted c c₁ ++ shaped t) (a ++ b) where
  slots := h.slots.append h'.slots
  code_eq := by
    rw [h'.code_eq, h.code_eq, List.append_assoc,
      emitted_append h.code_eq h'.code_eq]
  size_eq := by
    rw [emitted_append h.code_eq h'.code_eq, List.length_append, h.size_eq,
      h'.size_eq]
    rfl
  patchable := by
    rw [emitted_append h.code_eq h'.code_eq]
    apply Patchable.prepend
    rw [h.size_eq, ← h.length_eq]
    exact h'.patchable
  stands t bytes exits hcode x hx := by
    rw [CodeAt.append_iff, h.size_eq, ← h.length_eq] at hcode
    rcases mem_items_append.mp hx with hx | hx
    · exact h.stands bytes _ hcode.1 x hx
    · rw [← h.length_eq] at hx
      exact h'.stands t bytes exits hcode.2 x hx
  jumps := by
    obtain ⟨new, hnew, hmeant⟩ := h.jumps
    obtain ⟨new', hnew', hmeant'⟩ := h'.jumps
    refine ⟨new ++ new', by rw [hnew', hnew, List.append_assoc], ?_⟩
    intro t exits j
    have hitems : (a ++ b).laidOut c.code.length
        ((c'.code.length + t) :: exits) =
        a.laidOut c.code.length ((c'.code.length + t) :: exits) ++
          b.laidOut c₁.code.length ((c'.code.length + t) :: exits) := by
      rw [h.length_eq]
      rfl
    rw [hitems, meant_append, ← hmeant, ← hmeant', List.mem_append, or_assoc]

theorem Lays.append (h : Lays c c₁ a) (h' : Lays c₁ c' b) :
    Lays c c' (a ++ b) where
  slots := h.slots.append h'.slots
  code_eq := (h.laysTo_append h'.laysTo).code_eq
  size_eq := (h.laysTo_append h'.laysTo).size_eq
  stands bytes exits hcode x hx := by
    rw [emitted_append h.code_eq h'.code_eq, CodeAt.append_iff, h.size_eq,
      ← h.length_eq] at hcode
    rcases mem_items_append.mp hx with hx | hx
    · exact h.stands bytes _ hcode.1 x hx
    · rw [← h.length_eq] at hx
      exact h'.stands bytes exits hcode.2 x hx
  jumps := by
    obtain ⟨new, hnew, hmeant⟩ := h.jumps
    obtain ⟨new', hnew', hmeant'⟩ := h'.jumps
    refine ⟨new ++ new', by rw [hnew', hnew, List.append_assoc], ?_⟩
    intro exits j
    have hitems : (a ++ b).laidOut c.code.length exits =
        a.laidOut c.code.length exits ++ b.laidOut c₁.code.length exits := by
      rw [h.length_eq]
      rfl
    rw [hitems, meant_append, ← hmeant, ← hmeant', List.mem_append]

/-- A jump to label 0 between two parts. -/
theorem Lays.hole {op : VmOpcode} (h : Lays c c₁ a)
    (h' : LaysTo (c₁.emitJump op).2 c' holes shaped b) :
    LaysTo c c' ((c₁.emitJump op).1 :: holes)
      (fun t => emitted c c₁ ++
        (jumpBytes op ((shaped t).length + t : Nat) ++ shaped t))
      (a ++ .br op 0 ++ b) := by
  have hjump : (c₁.emitJump op).2.code.length =
      c.code.length + a.bytes + 3 := by
    rw [emitJump_code, List.length_append, h.length_eq]
    rfl
  have hem : emitted c c' =
      emitted c c₁ ++ jumpBytes op 0 ++ emitted (c₁.emitJump op).2 c' := by
    apply emitted_of_code_eq
    rw [h'.code_eq, emitJump_code]
    nth_rewrite 1 [h.code_eq]
    simp only [List.append_assoc]
  have hsize : (emitted c c').length = a.bytes + 3 + b.bytes := by
    rw [hem, List.length_append, List.length_append, h.size_eq, h'.size_eq]
    rfl
  have hpos : (c₁.emitJump op).1 = c.code.length + a.bytes + 1 := by
    rw [emitJump_fst, h.length_eq]
  have hlast := h'.length_eq
  have hstart : c.code.length + (a ++ .br op 0 : Code).bytes =
      (c₁.emitJump op).2.code.length := by
    rw [hjump, Nat.add_assoc]
    rfl
  refine ⟨(h.slots.append (slots_jump c₁ op 0)).append h'.slots, ?_, hsize,
    ?_, ?_, ?_⟩
  · rw [hem, h'.code_eq, emitJump_code]
    nth_rewrite 1 [h.code_eq]
    simp only [List.append_assoc]
  · rw [hem, hpos, ← h.size_eq]
    apply Patchable.cons
    rw [h.size_eq, ← hjump]
    exact h'.patchable
  · intro t bytes exits hcode x hx
    rw [CodeAt.append_iff, CodeAt.append_iff, h.size_eq,
      Machine.jumpBytes_length] at hcode
    obtain ⟨hcode₁, hcode₂, hcode₃⟩ := hcode
    rcases mem_items_append.mp hx with hx | hx
    · rcases mem_items_append.mp hx with hx | hx
      · exact h.stands bytes _ hcode₁ x hx
      · obtain ⟨target, ht, rfl⟩ := mem_items_br.mp hx
        obtain rfl : c'.code.length + t = target := by simpa using ht
        rw [h'.shaped_length] at hcode₂
        have hoff : ((c'.code.length + t : Nat) : Int) -
            ((c.code.length + a.bytes : Nat) + 3) = (b.bytes + t : Nat) := by
          push_cast
          omega
        simp only [ItemStands, hoff]
        exact hcode₂
    · rw [hstart] at hx
      rw [← hjump] at hcode₃
      exact h'.stands t bytes exits hcode₃ x hx
  · obtain ⟨new, hnew, hmeant⟩ := h.jumps
    obtain ⟨new', hnew', hmeant'⟩ := h'.jumps
    refine ⟨new ++ new', ?_, ?_⟩
    · rw [hnew', ← List.append_assoc, ← hnew]
      rfl
    · intro t exits j
      have hitems : (a ++ .br op 0 ++ b : Code).laidOut c.code.length
          ((c'.code.length + t) :: exits) =
          (a.laidOut c.code.length ((c'.code.length + t) :: exits) ++
            [(c.code.length + a.bytes, Item.jump op (c'.code.length + t))]) ++
          b.laidOut (c₁.emitJump op).2.code.length
            ((c'.code.length + t) :: exits) := by
        rw [← hstart]
        rfl
      rw [hitems, meant_append, meant_append, ← hmeant, ← hmeant']
      rw [meant_jump, ← hpos]
      simp only [List.mem_append, List.mem_cons, exists_eq_or_imp]
      tauto

theorem patchJump_jumps (c : Compiler) (pos : Nat) :
    (c.patchJump pos).jumps = c.jumps ++ [(pos, (c.code.length : Int))] := by
  simp only [patchJump, setJump]
  congr 3
  omega

theorem patchJumps_slots (c : Compiler) (holes : List Nat) :
    (c.patchJumps holes).locals = c.locals ∧
      (c.patchJumps holes).maxLocals = c.maxLocals := by
  induction holes generalizing c with
  | nil => exact ⟨rfl, rfl⟩
  | cons pos holes ih => exact ih (c.patchJump pos)

theorem patchJumps_jumps (c : Compiler) (holes : List Nat) :
    (c.patchJumps holes).jumps =
      c.jumps ++ holes.map fun pos => (pos, (c.code.length : Int)) := by
  induction holes generalizing c with
  | nil => simp [patchJumps]
  | cons pos holes ih =>
      have hlen : (c.patchJump pos).code.length = c.code.length := by
        simp [patchJump, setJump]
      have hrest := ih (c.patchJump pos)
      rw [hlen, patchJump_jumps] at hrest
      simpa [patchJumps] using hrest

/-- The end of a block within another one: a jump to the end of the outer one,
which the holes of the inner one lead past. -/
theorem LaysTo.leave {holes₁ : List Nat} {shaped₁ : Nat → List UInt8}
    (h : LaysTo c c₁ holes₁ shaped₁ a)
    (h' : LaysTo ((c₁.emitJump .jump).2.patchJumps holes₁) c' holes shaped b) :
    LaysTo c c' ((c₁.emitJump .jump).1 :: holes)
      (fun t => shaped₁ 3 ++
        (jumpBytes .jump ((shaped t).length + t : Nat) ++ shaped t))
      (.block (a ++ .br .jump 1) ++ b) := by
  have hinner : ((c₁.emitJump .jump).2.patchJumps holes₁).code =
      c.code ++ shaped₁ 3 ++ jumpBytes .jump 0 := by
    rw [patchJumps_code, emitJump_code, h.code_eq]
    exact h.patchable.patch_eq c.code (jumpBytes .jump 0) rfl
  have hlen : ((c₁.emitJump .jump).2.patchJumps holes₁).code.length =
      c.code.length + a.bytes + 3 := by
    rw [hinner, List.length_append, List.length_append, h.shaped_length]
    rfl
  have hem : emitted c c' = shaped₁ 3 ++ jumpBytes .jump 0 ++
      emitted ((c₁.emitJump .jump).2.patchJumps holes₁) c' := by
    apply emitted_of_code_eq
    rw [h'.code_eq]
    nth_rewrite 1 [hinner]
    simp only [List.append_assoc]
  have hpos : (c₁.emitJump .jump).1 = c.code.length + a.bytes + 1 := by
    rw [emitJump_fst, h.length_eq]
  have hend : c₁.code.length + 3 = c.code.length + a.bytes + 3 := by
    rw [h.length_eq]
  have hlast := h'.length_eq
  have hitems : ∀ E exits,
      (.block (a ++ .br .jump 1) ++ b : Code).laidOut c.code.length
        (E :: exits) =
      (a.laidOut c.code.length ((c₁.code.length + 3) :: E :: exits) ++
        [(c.code.length + a.bytes, Item.jump VmOpcode.jump E)]) ++
      b.laidOut ((c₁.emitJump .jump).2.patchJumps holes₁).code.length
        (E :: exits) := by
    intro E exits
    rw [hend, hlen, Nat.add_assoc]
    rfl
  have hslots : Slots c ((c₁.emitJump .jump).2.patchJumps holes₁)
      (.block (a ++ .br .jump 1)) :=
    Slots.congr (h.slots.append (slots_jump c₁ .jump 1))
      (patchJumps_slots _ _).1 (patchJumps_slots _ _).2
  refine ⟨hslots.append h'.slots, ?_, ?_, ?_, ?_, ?_⟩
  · rw [hem, h'.code_eq]
    nth_rewrite 1 [hinner]
    simp only [List.append_assoc]
  · rw [hem, List.length_append, List.length_append, h.shaped_length,
      h'.size_eq]
    rfl
  · rw [hem, hpos, ← h.shaped_length 3]
    apply Patchable.cons
    rw [h.shaped_length, ← hlen]
    exact h'.patchable
  · intro t bytes exits hcode x hx
    rw [CodeAt.append_iff, CodeAt.append_iff, h.shaped_length,
      Machine.jumpBytes_length] at hcode
    obtain ⟨hcode₁, hcode₂, hcode₃⟩ := hcode
    rw [hitems] at hx
    rcases List.mem_append.mp hx with hx | hx
    · rcases List.mem_append.mp hx with hx | hx
      · exact h.stands 3 bytes _ hcode₁ x hx
      · obtain rfl := List.mem_singleton.mp hx
        rw [h'.shaped_length] at hcode₂
        have hoff : ((c'.code.length + t : Nat) : Int) -
            ((c.code.length + a.bytes : Nat) + 3) = (b.bytes + t : Nat) := by
          push_cast
          omega
        simp only [ItemStands, hoff]
        exact hcode₂
    · rw [← hlen] at hcode₃
      exact h'.stands t bytes exits hcode₃ x hx
  · obtain ⟨new, hnew, hmeant⟩ := h.jumps
    obtain ⟨new', hnew', hmeant'⟩ := h'.jumps
    have hlen₁ : ((c₁.emitJump .jump).2.code.length : Int) =
        ((c₁.code.length + 3 : Nat) : Int) := by
      rw [emitJump_code, List.length_append]
      rfl
    refine ⟨new ++ (holes₁.map fun pos =>
      (pos, ((c₁.code.length + 3 : Nat) : Int))) ++ new', ?_, ?_⟩
    · rw [hnew', patchJumps_jumps, hlen₁]
      have hjump : (c₁.emitJump .jump).2.jumps = c₁.jumps := rfl
      rw [hjump, hnew]
      simp only [List.append_assoc]
    · intro t exits j
      rw [hitems, meant_append, meant_append, ← hmeant, ← hmeant', meant_jump,
        ← hpos]
      have hmap : j ∈ (holes₁.map fun pos =>
          (pos, ((c₁.code.length + 3 : Nat) : Int))) ↔
          ∃ pos ∈ holes₁, j = (pos, ((c₁.code.length + 3 : Nat) : Int)) := by
        simp only [List.mem_map, eq_comm]
      simp only [List.mem_append, List.mem_cons, exists_eq_or_imp, hmap]
      exact or_or_or_comm

/-- The end of a block that only its own jumps leave. -/
theorem LaysTo.close (h : LaysTo c c₁ holes shaped a) :
    Lays c (c₁.patchJumps holes) (.block a) := by
  have hcode := h.patchable.patched_code h.code_eq
  have hem := emitted_of_code_eq hcode
  have hitems : ∀ exits, Code.laidOut (.block a) c.code.length exits =
      a.laidOut c.code.length ((c₁.code.length + 0) :: exits) := by
    intro exits
    rw [Nat.add_zero, h.length_eq]
    rfl
  refine ⟨Slots.congr h.slots (patchJumps_slots _ _).1
    (patchJumps_slots _ _).2, by rw [hem, hcode], ?_, ?_, ?_⟩
  · rw [hem, h.shaped_length]
    rfl
  · intro bytes exits hbytes x hx
    rw [hem] at hbytes
    rw [hitems] at hx
    exact h.stands 0 bytes exits hbytes x hx
  · obtain ⟨new, hnew, hmeant⟩ := h.jumps
    refine ⟨new ++ holes.map fun pos => (pos, (c₁.code.length : Int)), ?_, ?_⟩
    · rw [patchJumps_jumps, hnew, List.append_assoc]
    · intro exits j
      rw [hitems, ← hmeant]
      simp only [List.mem_append, List.mem_map, Nat.add_zero, eq_comm]

theorem jumpBack_jumps (c : Compiler) (loopStart : Nat) :
    (c.jumpBack loopStart).jumps =
      c.jumps ++ [(c.code.length + 1, (loopStart : Int))] := by
  simp only [jumpBack, setJump, emitJump_fst]
  have hjumps : (c.emitJump .jump).2.jumps = c.jumps := rfl
  rw [hjumps]
  congr 3
  push_cast
  omega

/-- A loop: its body ends in a jump back, its test in one past that. -/
theorem lays_loop (h : Lays c c₁ a)
    (h' : Lays (c₁.emitJump .jumpIfNil).2 c₂ b) :
    Lays c ((c₂.jumpBack c.code.length).patchJump
        (c₁.emitJump .jumpIfNil).1)
      (.block (.loop (a ++ .br .jumpIfNil 1 ++ b ++ .br .jump 0))) := by
  have hjump : (c₁.emitJump .jumpIfNil).2.code.length =
      c.code.length + a.bytes + 3 := by
    rw [emitJump_code, List.length_append, h.length_eq]
    rfl
  have hlen₂ : c₂.code.length = c.code.length + a.bytes + 3 + b.bytes := by
    rw [h'.length_eq, hjump]
  have hback : (c₂.jumpBack c.code.length).code = c₁.code ++
      jumpBytes .jumpIfNil 0 ++
      (emitted (c₁.emitJump .jumpIfNil).2 c₂ ++
        jumpBytes .jump (c.code.length - (c₂.code.length + 3) : Int)) := by
    rw [jumpBack_code]
    nth_rewrite 1 [h'.code_eq]
    rw [emitJump_code]
    simp only [List.append_assoc]
  have hcode := patchJump_code hback (emitJump_fst c₁ .jumpIfNil)
  have hem : emitted c ((c₂.jumpBack c.code.length).patchJump
      (c₁.emitJump .jumpIfNil).1) =
      emitted c c₁ ++ (jumpBytes .jumpIfNil (b.bytes + 3 : Nat) ++
        (emitted (c₁.emitJump .jumpIfNil).2 c₂ ++
          jumpBytes .jump (c.code.length - (c₂.code.length + 3) : Int))) := by
    apply emitted_of_code_eq
    rw [hcode, List.length_append, h'.size_eq]
    nth_rewrite 1 [h.code_eq]
    simp only [List.append_assoc]
    rfl
  have hsize : (a ++ .br .jumpIfNil 1 ++ b ++ .br .jump 0 : Code).bytes =
      a.bytes + 3 + b.bytes + 3 := rfl
  have hitems : ∀ exits, Code.laidOut
      (.block (.loop (a ++ .br .jumpIfNil 1 ++ b ++ .br .jump 0)))
        c.code.length exits =
      (a.laidOut c.code.length (c.code.length :: (c₂.code.length + 3) :: exits)
        ++ [(c.code.length + a.bytes,
          Item.jump VmOpcode.jumpIfNil (c₂.code.length + 3))]) ++
      b.laidOut (c₁.emitJump .jumpIfNil).2.code.length
        (c.code.length :: (c₂.code.length + 3) :: exits) ++
      [(c₂.code.length, Item.jump VmOpcode.jump c.code.length)] := by
    intro exits
    have hend : c₂.code.length + 3 =
        c.code.length + (a.bytes + 3 + b.bytes + 3) := by omega
    have hsnd : c₂.code.length = c.code.length + (a.bytes + 3 + b.bytes) := by
      omega
    rw [hend, hjump, hsnd, Nat.add_assoc c.code.length a.bytes 3]
    rfl
  refine ⟨((h.slots.append (slots_jump c₁ .jumpIfNil 1)).append
    h'.slots).append (slots_jump c₂ .jump 0), ?_, ?_, ?_, ?_⟩
  · rw [hem, hcode, List.length_append, h'.size_eq]
    nth_rewrite 1 [h.code_eq]
    simp only [List.append_assoc]
    rfl
  · rw [hem]
    simp only [List.length_append, Machine.jumpBytes_length, h.size_eq,
      h'.size_eq]
    have hbytes : Code.bytes
        (.block (.loop (a ++ .br .jumpIfNil 1 ++ b ++ .br .jump 0))) =
        a.bytes + 3 + b.bytes + 3 := rfl
    omega
  · intro bytes exits hbytes x hx
    rw [hem] at hbytes
    simp only [CodeAt.append_iff, Machine.jumpBytes_length, h.size_eq,
      h'.size_eq] at hbytes
    obtain ⟨hcode₁, hcode₂, hcode₃, hcode₄⟩ := hbytes
    rw [hitems] at hx
    rcases List.mem_append.mp hx with hx | hx
    · rcases List.mem_append.mp hx with hx | hx
      · rcases List.mem_append.mp hx with hx | hx
        · exact h.stands bytes _ hcode₁ x hx
        · obtain rfl := List.mem_singleton.mp hx
          have hoff : ((c₂.code.length + 3 : Nat) : Int) -
              ((c.code.length + a.bytes : Nat) + 3) = (b.bytes + 3 : Nat) := by
            push_cast
            omega
          simp only [ItemStands, hoff]
          exact hcode₂
      · rw [← hjump] at hcode₃
        exact h'.stands bytes _ hcode₃ x hx
    · obtain rfl := List.mem_singleton.mp hx
      rw [← hlen₂] at hcode₄
      exact hcode₄
  · obtain ⟨new, hnew, hmeant⟩ := h.jumps
    obtain ⟨new', hnew', hmeant'⟩ := h'.jumps
    have hlast : (c₂.jumpBack c.code.length).code.length =
        c₂.code.length + 3 := by
      rw [jumpBack_code, List.length_append]
      rfl
    have hjumps : (c₁.emitJump .jumpIfNil).2.jumps = c₁.jumps := rfl
    refine ⟨new ++ new' ++ [(c₂.code.length + 1, (c.code.length : Int)),
      (c₁.code.length + 1, ((c₂.code.length + 3 : Nat) : Int))], ?_, ?_⟩
    · rw [patchJump_jumps, jumpBack_jumps, hlast, emitJump_fst, hnew', hjumps,
        hnew]
      simp only [List.append_assoc, List.cons_append, List.nil_append]
    · intro exits j
      rw [hitems, meant_append, meant_append, meant_append, ← hmeant,
        ← hmeant', meant_jump, meant_jump, ← h.length_eq]
      simp only [List.mem_append, List.mem_cons, List.not_mem_nil, or_false]
      exact ((or_congr_right or_comm).trans or_or_or_comm).trans or_assoc.symm

theorem slots_instr {i : Instr} (hslot : i.slots ≤ c.locals.length)
    (hlocals : c'.locals = c.locals) (hmax : c'.maxLocals = c.maxLocals) :
    Slots c c' (.instr i) := by
  intro h
  rw [hlocals, hmax]
  exact ⟨h, le_rfl, hslot.trans h⟩

/-- An instruction. -/
theorem lays_instr {i : Instr} {o : List UInt8} (hslots : Slots c c' (.instr i))
    (hcode : c'.code = c.code ++ i.op.toByte :: o) (hjumps : c'.jumps = c.jumps)
    (hwidth : o.length = i.op.operandWidth)
    (harg : ∀ arg, i.argBytes = some arg → o = arg) :
    Lays c c' (.instr i) := by
  have hem := emitted_of_code_eq hcode
  refine ⟨hslots, by rw [hem, hcode], ?_, ?_, ⟨[], by simp [hjumps], ?_⟩⟩
  · rw [hem, List.length_cons, hwidth, Nat.add_comm]
    rfl
  · intro bytes exits hbytes x hx
    rw [hem] at hbytes
    obtain rfl := mem_items_instr.mp hx
    exact ⟨o, hwidth, hbytes, harg⟩
  · intro exits j
    simp only [List.not_mem_nil, false_iff]
    exact not_meant_instr

/-- An instruction without an operand. -/
theorem lays_plain {i : Instr} (ho : i.op.operandWidth = 0) (c : Compiler)
    (hslot : i.slots ≤ c.locals.length) :
    Lays c (c.emitOp i.op) (.instr i) := by
  refine lays_instr (o := []) (slots_instr hslot rfl rfl) (by simp) rfl ho.symm
    ?_
  intro arg harg
  obtain ⟨o, n⟩ := i
  cases o <;>
    first | (cases harg; done) | simp [VmOpcode.operandWidth] at ho

theorem lays_op {o : VmOpcode} (ho : Instr.isPlain o = true) (c : Compiler) :
    Lays c (c.emitOp o) (Code.op o) := by
  simp only [Instr.isPlain, Bool.and_eq_true, beq_iff_eq] at ho
  exact lays_plain (i := ⟨o, 0⟩) ho.1 c (by omega)

theorem lays_load (c : Compiler) {slot : Nat} (hslot : slot < c.locals.length) :
    Lays c (c.emitLoadLocal slot) (Code.load slot) := by
  match slot with
  | 0 => exact lays_plain (i := ⟨.loadLocal0, 0⟩) rfl c hslot
  | 1 => exact lays_plain (i := ⟨.loadLocal1, 1⟩) rfl c hslot
  | 2 => exact lays_plain (i := ⟨.loadLocal2, 2⟩) rfl c hslot
  | 3 => exact lays_plain (i := ⟨.loadLocal3, 3⟩) rfl c hslot
  | slot + 4 =>
      refine lays_instr (i := ⟨.loadLocal, slot + 4⟩)
        (o := operand (slot + 4 : Nat)) (slots_instr hslot rfl rfl) ?_ rfl rfl
        ?_
      · simp [loadLocalBytes]
      · intro arg harg
        exact Option.some.inj harg

theorem lays_store (c : Compiler) {slot : Nat}
    (hslot : slot < c.locals.length) :
    Lays c (c.emitStoreLocal slot) (Code.store slot) := by
  match slot with
  | 0 => exact lays_plain (i := ⟨.storeLocal0, 0⟩) rfl c hslot
  | 1 => exact lays_plain (i := ⟨.storeLocal1, 1⟩) rfl c hslot
  | 2 => exact lays_plain (i := ⟨.storeLocal2, 2⟩) rfl c hslot
  | 3 => exact lays_plain (i := ⟨.storeLocal3, 3⟩) rfl c hslot
  | slot + 4 =>
      refine lays_instr (i := ⟨.storeLocal, slot + 4⟩)
        (o := operand (slot + 4 : Nat)) (slots_instr hslot rfl rfl) ?_ rfl rfl
        ?_
      · simp [storeLocalBytes]
      · intro arg harg
        exact Option.some.inj harg

theorem addSymbol_jumps (c : Compiler) (s : Symbol) :
    (c.addSymbol s).2.jumps = c.jumps := by
  unfold addSymbol
  split <;> rfl

theorem addSymbol_slots (c : Compiler) (s : Symbol) :
    (c.addSymbol s).2.locals = c.locals ∧
      (c.addSymbol s).2.maxLocals = c.maxLocals := by
  unfold addSymbol
  split <;> exact ⟨rfl, rfl⟩

theorem lays_loadGlobal (c : Compiler) (s : Symbol) :
    Lays c (c.emitLoadGlobal s) (Code.op .loadGlobal) :=
  lays_instr (o := operand (c.addSymbol s).1)
    (slots_instr (Nat.zero_le _) (addSymbol_slots c s).1
      (addSymbol_slots c s).2)
    (by simp) (addSymbol_jumps c s) rfl (by simp [Instr.argBytes])

theorem lays_assign (c : Compiler) {slot : Option Nat} (s : Symbol)
    (hslot : ∀ k, slot = some k → k < c.locals.length) :
    Lays c (c.emitAssign slot s) (Code.assign slot) := by
  cases slot with
  | some slot =>
      exact (lays_op rfl c).append (lays_store (c.emitOp .dup) (hslot slot rfl))
  | none =>
      have hsame := addSymbol_slots (c.emitOp .dup) s
      refine (lays_op rfl c).append (lays_instr
        (o := operand ((c.emitOp .dup).addSymbol s).1)
        (slots_instr (Nat.zero_le _) hsame.1 hsame.2) ?_ ?_ rfl
        (by simp [Instr.argBytes]))
      · simp [emitAssign, (addSymbol_eq (c.emitOp .dup) s).1]
      · exact addSymbol_jumps (c.emitOp .dup) s

theorem lays_call (c : Compiler) {o : VmOpcode} (argc : Nat)
    (ho : o.operandWidth = 1) :
    Lays c (c.emitCall o argc) (Code.call o argc) := by
  have hslots : (⟨o, argc⟩ : Instr).slots = 0 := by
    cases o <;> first | rfl | exact absurd ho (by decide)
  refine lays_instr (o := [UInt8.ofNat argc])
    (slots_instr (hslots ▸ Nat.zero_le _) rfl rfl) ?_ rfl ho.symm ?_
  · simp [emitCall, emitByte]
  · intro arg harg
    cases o <;> first | exact Option.some.inj harg | exact absurd ho (by decide)

end Compiler

end NewLispNeo
