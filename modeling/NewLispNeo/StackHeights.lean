/-
The stack discipline of compiled code: every instruction has one height, and
every run reaches it at that height above the slots of its frame.
-/
import NewLispNeo.JumpTargets
import NewLispNeo.StackMoves

namespace NewLispNeo

open StructuredCode Code Machine

/-- The jumps and the argument counts of the code fit their fields. -/
structure Code.InRange (code : Code) : Prop where
  jumps : code.JumpsFit
  args : code.All fun i => i.op.operandWidth = 1 → i.arg < 256

/-- The bytecode of a lambda whose operands fit their fields. -/
def Bytecode.InRange (bc : Bytecode) : Prop :=
  ∃ cctx contents, compileLambda cctx contents = .value bc ∧
    (lambdaCode cctx contents).InRange

/-- The heights of the instructions of bytecode that has the structure `code`. -/
structure HasHeights (bc : Bytecode) (code : Code)
    (height : Nat → Option Nat) : Prop where
  heights : Heights effects Instr.width jumpWidth (code.laidOut 0 []) 0
    code.bytes 0 (fun _ _ => False) height
  nonempty : 0 < code.bytes
  stands : ∀ x ∈ code.laidOut 0 [], ItemStands bc.code x.1 x.2
  inRange : code.InRange
  slots : code.All fun i => i.slots ≤ bc.numLocals

section Lambda

variable {cctx : CompileContext} {contents : List Cell} {bc : Bytecode}

theorem compileLambda_slots (h : compileLambda cctx contents = .value bc) :
    (lambdaCode cctx contents).All fun i => i.slots ≤ bc.numLocals := by
  unfold compileLambda at h
  split at h
  · rename_i params body
    simp only [Outcome.bind_eq_value_iff, Prod.exists,
      Outcome.value.injEq] at h
    obtain ⟨locals, n, hparams, c, hc, rfl⟩ := h
    obtain rfl := compileParams_paramLocals hparams
    have hbody := compileBody_lays (smallLays cctx (sizeOf body + 1))
      (Nat.lt_succ_self _) hc
    have hret : (Code.op .ret).All fun i => i.slots ≤ c.maxLocals :=
      Nat.zero_le _
    exact ⟨(hbody.slots le_rfl).2.2, hret⟩
  · cases h

theorem instr_width_pos (i : Instr) : 0 < i.width := by
  unfold Instr.width
  omega

theorem jumpWidth_pos : 0 < jumpWidth := by decide

/-- `OP_RET` stands over one value and leads nowhere. -/
theorem ret_leads (p : Nat) : (Item.instr ⟨.ret, 0⟩).Leads effects Instr.width
    jumpWidth p 1 (fun _ _ => False) := by
  refine ⟨⟨Nat.le_refl 1, rfl, fun _ => rfl⟩, fun h => ?_⟩
  cases h

/-- The heights of a body and its return. -/
theorem exists_heights_ret {body : Code} (hbody : Raises body) :
    ∃ height, Heights effects Instr.width jumpWidth
        ((body ++ op .ret).laidOut 0 []) 0 (body ++ op .ret).bytes 0
        (fun _ _ => False) height ∧
      PartHeights effects Instr.width jumpWidth 0 body
        fun s l => height s = some l := by
  have htyped := (hbody [] 0 1).mpr rfl
  obtain ⟨inner, hinner, hparts⟩ := htyped.heights instr_width_pos
    jumpWidth_pos 0 [] (fun s l => s = 0 + body.bytes ∧ l = 1) rfl ⟨rfl, rfl⟩
    (by simp)
  have hlast := heights_single (ret_leads (0 + body.bytes)) Nat.one_pos
  have hempty : 0 = 0 + body.bytes → 0 = 1 := by
    intro hempty
    have hzero : body.bytes = 0 := by omega
    exact htyped.eq_of_size_eq_zero instr_width_pos jumpWidth_pos hzero
  have hall := hinner.append hlast (Nat.zero_le _) (Nat.le_succ _) hempty (by
    rintro s l ⟨rfl, rfl⟩
    exact .inl (if_pos rfl))
  have hsize : 0 + body.bytes + 1 = (body ++ op .ret).bytes := by
    rw [Nat.zero_add]
    rfl
  rw [hsize] at hall
  refine ⟨_, hall, hparts.mono ?_⟩
  rintro s l (hs | ⟨rfl, rfl⟩)
  · simp [hs]
  · exact hinner.or_right hlast (if_pos rfl)

/-- Code that leaves a value is part of a body and not of its return. -/
theorem part_of_raises {x body : Code} {p : Nat} (hx : Raises x)
    (hbody : Raises body)
    (h : Part Instr.width jumpWidth x 0 (body ++ op .ret) p) :
    Part Instr.width jumpWidth x 0 body p := by
  have hret : effects.fits ⟨.ret, 0⟩ 1 := ⟨Nat.le_refl 1, rfl, fun _ => rfl⟩
  cases h with
  | self =>
      have hall : Code.Typed [] (body ++ op .ret) 0 0 :=
        .seq ((hbody [] 0 1).mpr rfl) (.instr hret rfl)
      exact absurd ((hx [] 0 0).mp hall) (by decide)
  | left h => exact h
  | right h =>
      cases h
      have hall : Code.Typed [] (op .ret) 1 0 := .instr hret rfl
      exact absurd ((hx [] 1 0).mp hall) (by decide)

/-- A compiled lambda has its heights, and each of the expressions in it leaves
one value. -/
theorem exists_heights (h : compileLambda cctx contents = .value bc)
    (hrange : (lambdaCode cctx contents).InRange) :
    ∃ height, HasHeights bc (lambdaCode cctx contents) height ∧
      ∀ e isTail locals p, Part Instr.width jumpWidth
        (exprCode cctx e isTail locals) 0 (lambdaCode cctx contents) p →
        ∃ k, height p = some k ∧
          height (p + (exprCode cctx e isTail locals).bytes) =
            some (k + 1) := by
  have hstands := compileLambda_stands h
  have hslots := compileLambda_slots h
  unfold compileLambda at h
  split at h
  · rename_i params body
    have hbody : Raises (bodyCode cctx body true (paramLocals params)) :=
      raises_lambdaBody body _
    obtain ⟨height, hheights, hparts⟩ := exists_heights_ret hbody
    refine ⟨height, ⟨hheights, Nat.succ_pos _, hstands, hrange, hslots⟩, ?_⟩
    intro e isTail locals p hpart
    have hraises : Raises (exprCode cctx e isTail locals) :=
      raises_exprCode e isTail locals
    obtain ⟨labels, k, l, htyped, hk, hl⟩ :=
      hparts _ p (part_of_raises hraises hbody hpart)
    rw [(raises_iff hraises).mp htyped] at hl
    exact ⟨k, hk, hl⟩
  · cases h

end Lambda

/-- The opcode at the instruction pointer. -/
def Machine.opcode (m : Machine) : Option VmOpcode :=
  m.bytecode.code[m.ip]?.bind VmOpcode.ofByte

/-- The numbers of slots of the frames, innermost first, after a step.  A frame
has the slots that are on the stack when its function is entered: the arguments,
surplus ones included, and the locals. -/
def slotsAfter (m m' : Machine) (slots : List Nat) : List Nat :=
  match m.opcode with
  | some .call | some .callSelf =>
      if m.frames.length < m'.frames.length
      then (m'.vmStack.length - m'.fp) :: slots else slots
  | some .tailCall | some .tailCallSelf =>
      if m'.frames.length < m.frames.length then slots.tail
      else (m'.vmStack.length - m'.fp) :: slots.tail
  | some .ret => slots.tail
  | _ => slots

/-- A run of `executeBytecode` on functions whose operands fit their fields,
with the slots of its frames. -/
inductive Execution (ctx : MachineContext) : Machine → List Nat → Prop where
  | start (bc : Bytecode) (self : Cell) (args : List Val) (σ : Interp)
      (hrange : bc.InRange) :
      Execution ctx (Machine.start bc self args σ) [(frameOf bc args).length]
  | step {m m' : Machine} {slots : List Nat} (h : Execution ctx m slots)
      (hstep : m.step ctx = .value (.goOn m'))
      (hrange : m'.bytecode.InRange) :
      Execution ctx m' (slotsAfter m m' slots)

/-- The suspended callers: each goes on with the result on its operands. -/
inductive Callers (maps : Bytecode → Nat → Option Nat) :
    List Frame → List Nat → Nat → Prop where
  | base : Callers maps [] [] 0
  | caller {f : Frame} {frames : List Frame} {n k : Nat} {slots : List Nat}
      (hrange : f.bytecode.InRange)
      (hheight : maps f.bytecode f.ip = some (k + 1))
      (hslots : f.bytecode.numLocals ≤ n)
      (hcallers : Callers maps frames slots f.fp) :
      Callers maps (f :: frames) (n :: slots) (f.fp + n + k)

/-- The machine is at height `k` above the `n` slots of its frame. -/
structure Disciplined (maps : Bytecode → Nat → Option Nat) (m : Machine)
    (n : Nat) (slots : List Nat) (k : Nat) : Prop where
  inRange : m.bytecode.InRange
  at_height : maps m.bytecode m.ip = some k
  locals : m.bytecode.numLocals ≤ n
  height : m.vmStack.length = m.fp + n + k
  callers : Callers maps m.frames slots m.fp

theorem HasHeights.item_at {bc : Bytecode} {code : Code}
    {height : Nat → Option Nat} {r k : Nat} (h : HasHeights bc code height)
    (hk : height r = some k) :
    ∃ item, (r, item) ∈ code.laidOut 0 [] ∧ ItemStands bc.code r item ∧
      item.Leads effects Instr.width jumpWidth r k
        (fun s l => height s = some l) := by
  obtain ⟨item, hmem⟩ := h.heights.covers r k hk
  obtain ⟨k', hk', hleads⟩ := h.heights.leads _ hmem
  obtain rfl : k' = k := Option.some.inj (hk'.symm.trans hk)
  exact ⟨item, hmem, h.stands _ hmem, hleads.mono (by simp)⟩

section Discipline

variable {ctx : MachineContext} {maps : Bytecode → Nat → Option Nat}
  (hmaps : ∀ bc : Bytecode, bc.InRange →
    ∃ code, HasHeights bc code (maps bc))
  {m m' : Machine} {n k : Nat} {slots : List Nat}

include hmaps

theorem maps_start {bc : Bytecode} (h : bc.InRange) : maps bc 0 = some 0 := by
  obtain ⟨code, hheights⟩ := hmaps bc h
  exact hheights.heights.entry hheights.nonempty

/-- At the start of a callee the stack holds just its slots. -/
theorem Disciplined.entered (hrange : m'.bytecode.InRange) (hip : m'.ip = 0)
    (hslots : m'.fp + m'.bytecode.numLocals ≤ m'.vmStack.length)
    (hcallers : Callers maps m'.frames slots m'.fp) :
    Disciplined maps m' (m'.vmStack.length - m'.fp) slots 0 where
  inRange := hrange
  at_height := hip ▸ maps_start hmaps hrange
  locals := by omega
  height := by omega
  callers := hcallers

end Discipline

/-- The frame that was entered first is at the base. -/
theorem Disciplined.fp_base {maps : Bytecode → Nat → Option Nat} {m : Machine}
    {n k : Nat} {slots : List Nat} (h : Disciplined maps m n slots k)
    (hframes : m.frames = []) : m.fp = 0 := by
  have hcallers := h.callers
  rw [hframes] at hcallers
  generalize m.fp = fp at hcallers
  cases hcallers
  rfl

/-- A call suspends its caller. -/
theorem Disciplined.suspend {maps : Bytecode → Nat → Option Nat}
    {m m₁ m' : Machine} {n k j l : Nat} {slots : List Nat}
    (h : Disciplined maps m n slots k) (hmoves : Moves m m₁ j 0)
    (henters : Enters m₁ m' l) (hl : l ≤ k)
    (hheight : maps m.bytecode (m.ip + j) = some (k - l + 1)) :
    Callers maps m'.frames (n :: slots) m'.fp := by
  have hfp : m'.fp = m₁.fp + n + (k - l) := by
    have hlen := hmoves.height
    have hlen' := h.height
    have hfp := henters.fp
    have hsame := hmoves.fp
    omega
  rw [henters.frames, hfp]
  refine .caller (f := ⟨m₁.bytecode, m₁.ip, m₁.fp, m₁.currentSelf⟩) ?_ ?_ ?_ ?_
  · rw [hmoves.bytecode]
    exact h.inRange
  · rw [hmoves.bytecode, hmoves.ip]
    exact hheight
  · rw [hmoves.bytecode]
    exact h.locals
  · rw [hmoves.frames, hmoves.fp]
    exact h.callers

/-- A return finds its caller waiting for the result. -/
theorem Disciplined.resume {maps : Bytecode → Nat → Option Nat}
    {m m₁ m' : Machine} {n k : Nat} {d : Int} {slots : List Nat} {v : Val}
    (h : Disciplined maps m n slots k) (hstays : Stays m m₁ d) (hd : -d ≤ k)
    (hreturn : m₁.return_ v = .value (.goOn m')) :
    m'.frames.length < m.frames.length ∧
      ∃ n' slots' k', slots = n' :: slots' ∧
        Disciplined maps m' n' slots' k' := by
  rcases return_cases hreturn with ⟨-, r, hdone⟩ |
    ⟨fr, frames, m₂, hframes, hgo, hbc, hip, hfp, hframes', hstack⟩
  · cases hdone
  · obtain rfl : m' = m₂ := by simpa using hgo
    rw [hstays.frames] at hframes
    have hcallers := h.callers
    rw [hframes] at hcallers
    generalize hfp₀ : m.fp = fp at hcallers
    cases hcallers with
    | caller hrange hheight hslots hrest =>
        rename_i n' k' slots'
        refine ⟨by rw [hframes, hframes']; simp, n', slots', k' + 1, rfl, ?_⟩
        refine ⟨hbc ▸ hrange, ?_, hbc ▸ hslots, ?_, ?_⟩
        · rw [hbc, hip]
          exact hheight
        · have hlen := h.height
          have hlen' := hstays.height
          have hsame := hstays.fp
          rw [hstack, List.length_append, List.length_take, hfp]
          simp only [List.length_singleton]
          omega
        · rw [hframes', hfp]
          exact hrest

section Step

variable {ctx : MachineContext} {maps : Bytecode → Nat → Option Nat}
  {m m' : Machine} {n k : Nat} {slots : List Nat}

theorem opcode_eq {op : VmOpcode} {bytes : List UInt8}
    (h : m.Before (op.toByte :: bytes)) : m.opcode = some op := by
  have hcode : m.bytecode.code[m.ip]? = some op.toByte := h.1
  rw [Machine.opcode, hcode, Option.bind_some, VmOpcode.ofByte_toByte]

/-- The machine past an opcode. -/
theorem moves_goTo (m : Machine) :
    Moves m (m.goTo (m.ip + 1) m.vmStack) 1 0 :=
  ⟨⟨rfl, rfl, rfl, rfl, by simp⟩, rfl⟩

theorem step_execute_eq {op : VmOpcode} {bytes : List UInt8}
    (h : m.Before (op.toByte :: bytes)) (hret : op ≠ .ret)
    (htail : op ≠ .tailCall) (hstep : m.step ctx = .value (.goOn m')) :
    (m.goTo (m.ip + 1) m.vmStack).execute ctx op = .value m' := by
  rw [step_execute h hret htail, Outcome.bind_eq_value_iff] at hstep
  obtain ⟨m₁, hexecute, hgo⟩ := hstep
  have heq : m₁ = m' := by simpa using hgo
  exact heq ▸ hexecute

theorem step_ret_eq {bytes : List UInt8} {next : Next}
    (h : m.Before (VmOpcode.ret.toByte :: bytes))
    (hstep : m.step ctx = .value next) :
    ∃ v m₁, Stays m m₁ (-1) ∧ m₁.return_ v = .value next := by
  simp only [Machine.step, byte_eq h, Outcome.value_bind,
    VmOpcode.ofByte_toByte, Outcome.bind_eq_value_iff, Prod.exists] at hstep
  obtain ⟨v, m₁, hpop, hreturn⟩ := hstep
  exact ⟨v, m₁, ((moves_goTo m).trans (Moves.pop hpop)).toStays, hreturn⟩

theorem step_tailCall_eq {bytes : List UInt8} {next : Next}
    (h : m.Before (VmOpcode.tailCall.toByte :: bytes))
    (hstep : m.step ctx = .value next) :
    (m.goTo (m.ip + 1) m.vmStack).tailCall ctx = .value next := by
  simpa only [Machine.step, byte_eq h, Outcome.value_bind,
    VmOpcode.ofByte_toByte] using hstep

/-- The argument count a call reads. -/
theorem byte_arg {op : VmOpcode} {arg : Nat} {b : UInt8}
    (hstands : (⟨op, arg⟩ : Instr).Stands m.bytecode.code m.ip)
    (hop : (⟨op, arg⟩ : Instr).argBytes = some [UInt8.ofNat arg])
    (harg : arg < 256)
    (hb : (m.goTo (m.ip + 1) m.vmStack).bytecode.code[(m.goTo (m.ip + 1)
      m.vmStack).ip]? = some b) : b.toNat = arg := by
  obtain ⟨o, -, hcode, hargs⟩ := hstands
  rw [hargs _ hop, CodeAt.cons_iff, CodeAt.cons_iff] at hcode
  have heq : some (UInt8.ofNat arg) = some b := hcode.2.1.symm.trans hb
  rw [← Option.some.inj heq, UInt8.toNat_ofNat']
  omega

/-- A step within the frame leads from height to height. -/
theorem Disciplined.moved {d : Int} {k' : Nat} (h : Disciplined maps m n slots k)
    (hstays : Stays m m' d) (hheight : maps m.bytecode m'.ip = some k')
    (hk : (k' : Int) = k + d) : Disciplined maps m' n slots k' where
  inRange := hstays.bytecode ▸ h.inRange
  at_height := hstays.bytecode ▸ hheight
  locals := hstays.bytecode ▸ h.locals
  height := by
    have hlen := h.height
    have hlen' := hstays.height
    rw [hstays.fp]
    omega
  callers := by
    rw [hstays.frames, hstays.fp]
    exact h.callers

theorem slotsAfter_staysOn {op : VmOpcode} (hop : op.staysOn = true)
    (hopcode : m.opcode = some op) (slots : List Nat) :
    slotsAfter m m' slots = slots := by
  simp only [slotsAfter, hopcode]
  cases op <;> first | rfl | cases hop

/-- An instruction that stays in its frame. -/
theorem Disciplined.step_staysOn {op : VmOpcode} {arg : Nat}
    (h : Disciplined maps m n slots k) (hop : op.staysOn = true)
    (hstands : (⟨op, arg⟩ : Instr).Stands m.bytecode.code m.ip)
    (hleads : (Item.instr ⟨op, arg⟩).Leads effects Instr.width jumpWidth m.ip k
      (fun s l => maps m.bytecode s = some l))
    (hstep : m.step ctx = .value (.goOn m')) :
    ∃ n' slots' k', slotsAfter m m' (n :: slots) = n' :: slots' ∧
      Disciplined maps m' n' slots' k' := by
  obtain ⟨o, -, hbefore, -⟩ := hstands
  obtain ⟨⟨hpops, -, -⟩, hnext⟩ := hleads
  have hret : op ≠ .ret := by
    rintro rfl
    cases hop
  have htail : op ≠ .tailCall := by
    rintro rfl
    cases hop
  have hfalls : effects.falls ⟨op, arg⟩ = true := by
    cases op <;> first | rfl | cases hop
  have hexecute := step_execute_eq hbefore hret htail hstep
  have hmoves := (moves_goTo m).trans (execute_moves hop hexecute arg)
  refine ⟨n, slots, k - (⟨op, arg⟩ : Instr).pops + (⟨op, arg⟩ : Instr).pushes,
    slotsAfter_staysOn hop (opcode_eq hbefore) _,
    h.moved hmoves.toStays ?_ ?_⟩
  · rw [hmoves.ip]
    exact hnext hfalls
  · omega

/-- A jump. -/
theorem Disciplined.step_jump {op : VmOpcode} {t : Nat}
    (h : Disciplined maps m n slots k)
    (hstands : ItemStands m.bytecode.code m.ip (.jump op t))
    (hnear : -32768 ≤ (t : Int) - (m.ip + 3) ∧ (t : Int) - (m.ip + 3) < 32768)
    (hleads : (Item.jump op t : Item Instr VmOpcode).Leads effects Instr.width
      jumpWidth m.ip k (fun s l => maps m.bytecode s = some l))
    (hstep : m.step ctx = .value (.goOn m')) :
    ∃ n' slots' k', slotsAfter m m' (n :: slots) = n' :: slots' ∧
      Disciplined maps m' n' slots' k' := by
  obtain ⟨⟨hjump, hpops⟩, htarget, hnext⟩ := hleads
  have hret : op ≠ .ret := by
    rintro rfl
    cases hjump
  have htail : op ≠ .tailCall := by
    rintro rfl
    cases hjump
  have hbefore : m.Before (op.toByte :: operand (t - (m.ip + 3) : Int)) :=
    hstands
  have hexecute := step_execute_eq hbefore hret htail hstep
  have hbefore' : (m.goTo (m.ip + 1) m.vmStack).Before
      (operand (t - (m.ip + 3) : Int) ++ []) := by
    rw [List.append_nil]
    exact hbefore.2
  obtain ⟨hstays, hip⟩ := execute_jump (t := t) hjump hbefore' hnear.1 hnear.2
    (by rw [goTo_ip]; omega) hexecute
  have hstays := (moves_goTo m).toStays.trans hstays
  have hslots : slotsAfter m m' (n :: slots) = n :: slots := by
    simp only [slotsAfter, opcode_eq hbefore]
    cases op <;> first | rfl | cases hjump
  refine ⟨n, slots, k - op.jumpPops, hslots, h.moved hstays ?_ ?_⟩
  · rcases hip with hip | ⟨hfalls, hip⟩
    · rw [hip]
      exact htarget
    · rw [hip]
      exact hnext hfalls
  · omega

variable (hmaps : ∀ bc : Bytecode, bc.InRange →
  ∃ code, HasHeights bc code (maps bc))

include hmaps

/-- A callee takes over the frame. -/
theorem Disciplined.replaced {m₁ : Machine} {d : Int}
    (h : Disciplined maps m n slots k) (hstays : Stays m m₁ d)
    (hd : -d ≤ k) (hreenters : Reenters m₁ m')
    (hrange : m'.bytecode.InRange) :
    ¬ m'.frames.length < m.frames.length ∧
      Disciplined maps m' (m'.vmStack.length - m'.fp) slots 0 := by
  have hframes : m'.frames = m.frames :=
    hreenters.frames.trans hstays.frames
  have hfp : m'.fp = m.fp := hreenters.fp.trans hstays.fp
  refine ⟨by rw [hframes]; exact Nat.lt_irrefl _, ?_⟩
  refine Disciplined.entered hmaps hrange hreenters.ip ?_ ?_
  · apply hreenters.slots
    have hlen := h.height
    have hlen' := hstays.height
    have hsame := hstays.fp
    omega
  · rw [hframes, hfp]
    exact h.callers

/-- What one step preserves. -/
theorem Disciplined.step (h : Disciplined maps m n slots k)
    (hstep : m.step ctx = .value (.goOn m'))
    (hrange : m'.bytecode.InRange) :
    ∃ n' slots' k', slotsAfter m m' (n :: slots) = n' :: slots' ∧
      Disciplined maps m' n' slots' k' := by
  obtain ⟨code, hheights⟩ := hmaps _ h.inRange
  obtain ⟨item, hmem, hstands, hleads⟩ := hheights.item_at h.at_height
  cases item with
  | jump op t =>
      exact h.step_jump hstands (hheights.inRange.jumps _ _ _ hmem) hleads hstep
  | instr i =>
      obtain ⟨op, arg⟩ := i
      by_cases hop : op.staysOn = true
      · exact h.step_staysOn hop hstands hleads hstep
      have hstands' := hstands
      obtain ⟨o, -, hbefore, -⟩ := hstands
      have hopcode := opcode_eq hbefore
      obtain ⟨⟨hpops, hjump, hret⟩, hnext⟩ := hleads
      have hargs : op.operandWidth = 1 → arg < 256 :=
        hheights.inRange.args.of_mem_items hmem
      simp only [slotsAfter, hopcode]
      cases op with
      | ret =>
          obtain ⟨v, m₁, hstays, hreturn⟩ := step_ret_eq hbefore hstep
          have hone := hret rfl
          exact (h.resume hstays (by omega) hreturn).2
      | call =>
          have hexecute := step_execute_eq hbefore (by simp) (by simp) hstep
          have hpops : arg + 1 ≤ k := hpops
          obtain ⟨b, hb, hmoves | ⟨m₁, hmoves, henters⟩⟩ := call_cases hexecute
          · obtain rfl := byte_arg hstands' rfl (hargs rfl) hb
            have hmoves := (moves_goTo m).trans hmoves
            refine ⟨n, slots, k - (b.toNat + 1) + 1, ?_, h.moved hmoves.toStays
              (hmoves.ip ▸ hnext rfl) (by omega)⟩
            rw [hmoves.frames, if_neg (Nat.lt_irrefl _)]
          · obtain rfl := byte_arg hstands' rfl (hargs rfl) hb
            have hmoves := (moves_goTo m).trans hmoves
            refine ⟨_, _, 0, ?_, Disciplined.entered hmaps hrange henters.ip
              henters.slots (h.suspend hmoves henters hpops (hnext rfl))⟩
            rw [henters.frames, hmoves.frames, if_pos (by simp)]
      | callSelf =>
          have hexecute := step_execute_eq hbefore (by simp) (by simp) hstep
          have hpops : arg ≤ k := hpops
          obtain ⟨b, m₁, hb, hmoves, henters⟩ := callSelf_cases hexecute
          obtain rfl := byte_arg hstands' rfl (hargs rfl) hb
          have hmoves := (moves_goTo m).trans hmoves
          refine ⟨_, _, 0, ?_, Disciplined.entered hmaps hrange henters.ip
            henters.slots (h.suspend hmoves henters hpops (hnext rfl))⟩
          rw [henters.frames, hmoves.frames, if_pos (by simp)]
      | tailCall =>
          have hpops : arg + 1 ≤ k := hpops
          obtain ⟨b, m₁, hb, hstays, hcases⟩ :=
            tailCall_cases (step_tailCall_eq hbefore hstep)
          obtain rfl := byte_arg hstands' rfl (hargs rfl) hb
          have hstays := (moves_goTo m).toStays.trans hstays
          rcases hcases with ⟨m₂, hgo, hreenters⟩ | ⟨v, hreturn⟩
          · obtain rfl : m' = m₂ := by simpa using hgo
            obtain ⟨hlt, hnew⟩ :=
              h.replaced hmaps hstays (by omega) hreenters hrange
            exact ⟨_, _, 0, if_neg hlt, hnew⟩
          · obtain ⟨hlt, n', slots', k', hslots, hnew⟩ :=
              h.resume hstays (by omega) hreturn
            exact ⟨n', slots', k', (if_pos hlt).trans hslots, hnew⟩
      | tailCallSelf =>
          have hexecute := step_execute_eq hbefore (by simp) (by simp) hstep
          obtain ⟨m₁, hmoves, hreenters, -⟩ := tailCallSelf_cases hexecute
          have hstays := ((moves_goTo m).trans hmoves).toStays
          obtain ⟨hlt, hnew⟩ :=
            h.replaced hmaps hstays (by omega) hreenters hrange
          exact ⟨_, _, 0, if_neg hlt, hnew⟩
      | jump | jumpIfNil | jumpIfNotNil => cases hjump
      | _ => exact absurd rfl hop

/-- What a whole run preserves. -/
theorem Execution.disciplined {slots : List Nat}
    (h : Execution ctx m slots) : ∃ n rest k, slots = n :: rest ∧
      Disciplined maps m n rest k := by
  induction h with
  | start bc self args σ hrange =>
      refine ⟨_, [], 0, rfl, ?_⟩
      exact { inRange := hrange
              at_height := maps_start hmaps hrange
              locals := numLocals_le_frameOf bc args
              height := by simp [Machine.start]
              callers := .base }
  | step _ hstep hrange ih =>
      obtain ⟨n, rest, k, rfl, hdisciplined⟩ := ih
      exact hdisciplined.step hmaps hstep hrange

omit hmaps in
/-- Only the frame that was entered first returns from the run. -/
theorem frames_of_done {r : Cell × Interp}
    (h : m.step ctx = .value (.done r)) : m.frames = [] := by
  have hreturn : ∀ {m₁ : Machine} {d : Int} {v : Val}, Stays m m₁ d →
      m₁.return_ v = .value (.done r) → m.frames = [] := by
    intro m₁ d v hstays hr
    rcases return_cases hr with ⟨hframes, -⟩ | ⟨_, _, _, -, hgo, -⟩
    · rwa [hstays.frames] at hframes
    · cases hgo
  simp only [Machine.step, Outcome.bind_eq_value_iff, Prod.exists] at h
  obtain ⟨b, m₁, hb, h⟩ := h
  have hmoves := (Moves.byte hb).2
  split at h
  · cases h
  · simp only [Outcome.bind_eq_value_iff, Prod.exists] at h
    obtain ⟨v, m₂, hpop, hr⟩ := h
    exact hreturn (hmoves.trans (Moves.pop hpop)).toStays hr
  · obtain ⟨b', m₂, -, hstays, ⟨m₃, hgo, -⟩ | ⟨v, hr⟩⟩ := tailCall_cases h
    · cases hgo
    · exact hreturn (hmoves.toStays.trans hstays) hr
  · simp only [Outcome.bind_eq_value_iff, Outcome.value.injEq] at h
    obtain ⟨m₂, -, hgo⟩ := h
    cases hgo

end Step

end NewLispNeo
