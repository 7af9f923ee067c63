/-
`vm_stack` and `vm_frames` as the arrays all activations of `executeBytecode`
share: what one instruction does to them, and runs in which nothing is left on
them from outside.
-/
import NewLispNeo.StackLift
import NewLispNeo.Parameters

namespace NewLispNeo

open Machine

/-- A place in the code of a function. -/
structure CodePointer where
  code : List UInt8
  offset : Nat

/-- `bc->code`. -/
def Bytecode.entry (bc : Bytecode) : CodePointer := ⟨bc.code, 0⟩

/-- A `VM_FRAME`. -/
structure VmFrame where
  bytecode : Bytecode
  ip : CodePointer
  fp : Nat
  argc : Nat
  selfCell : Cell

/-- The slots of a frame: the arguments, surplus ones included, and the
locals. -/
def VmFrame.slots (f : VmFrame) : Nat := max f.argc f.bytecode.numLocals

/-- The caller it stands for. -/
def VmFrame.suspended (f : VmFrame) : Frame :=
  ⟨f.bytecode, f.ip.offset, f.fp, f.selfCell⟩

/-- The VM while an `executeBytecode` runs: `vm_stack` up to `vm_sp`, bottom
first, `vm_frames` up to `vm_frame_count`, last first, and its variables. -/
structure VmState where
  vmStack : List Val
  vmFrames : List VmFrame
  bytecode : Bytecode
  ip : CodePointer
  fp : Nat
  currentSelf : Cell
  interp : Interp

/-- What `executeBytecode` returns, and the arrays it leaves. -/
structure VmReturn where
  value : Cell
  vmStack : List Val
  vmFrames : List VmFrame
  interp : Interp

/-- What an instruction meets outside the VM: the frames that a call it makes
has left on `vm_frames`, because a handler inside the call has caught an error
or a throw of compiled code, and whether `traceFlag` is set. -/
structure Outside where
  leak : List VmFrame
  traced : Bool

/-- The operands are integers of which the second is 0. -/
def Machine.dividesByZero (m : Machine) : VmOpcode → Bool
  | .div | .mod =>
      match m.pop with
      | .value (b, m₁) =>
          match m₁.popCell, b.deref m₁.interp with
          | .value (.long _, _), .value (.long y) => y = 0
          | _, _ => false
      | _ => false
  | _ => false

namespace VmState

abbrev Next := StepRun.Next VmState VmReturn

/-- The variables of the running function as a machine. -/
def registers (g : VmState) : Machine where
  vmStack := g.vmStack
  bytecode := { g.bytecode with code := g.ip.code }
  ip := g.ip.offset
  fp := g.fp
  currentSelf := g.currentSelf
  frames := g.vmFrames.tail.map VmFrame.suspended
  interp := g.interp

/-- After an instruction that stays in its function. -/
def load (g : VmState) (m : Machine) : VmState :=
  { g with
    vmStack := m.vmStack
    ip := { g.ip with offset := m.ip }
    interp := m.interp }

def push (g : VmState) (v : Val) : VmState :=
  { g with vmStack := g.vmStack ++ [v] }

/-- `OP_CALL` and `OP_CALL_SELF` of compiled code: the place to return to goes
into the last frame, and a new one on top of it. -/
def enter (g : VmState) (below args : List Val) (bc : Bytecode) (self : Cell) :
    Outcome Error VmState :=
  if 256 ≤ bc.numParams then .undefined
  else
    match g.vmFrames with
    | [] => .undefined
    | top :: rest =>
        .value
          { g with
            vmStack := below ++ frameOf bc args
            vmFrames := ⟨bc, bc.entry, below.length,
              max args.length bc.numParams, self⟩ :: { top with ip := g.ip } ::
                rest
            bytecode := bc
            ip := bc.entry
            fp := below.length
            currentSelf := self }

/-- `OP_TAIL_CALL` of compiled code overwrites the last frame. -/
def reenter (g : VmState) (args : List Val) (bc : Bytecode) (self : Cell) :
    Outcome Error VmState :=
  match g.vmFrames with
  | [] => .undefined
  | _ :: rest =>
      .value
        { g with
          vmStack := g.vmStack.take g.fp ++ frameOf bc args
          vmFrames := ⟨bc, bc.entry, g.fp, args.length, self⟩ :: rest
          bytecode := bc
          ip := bc.entry
          currentSelf := self }

/-- `OP_TAIL_CALL_SELF` stores into the last frame. -/
def reenterSelf (g : VmState) (args : List Val) : Outcome Error VmState :=
  match g.vmFrames with
  | [] => .undefined
  | top :: rest =>
      .value
        { g with
          vmStack := g.vmStack.take g.fp ++ frameOf g.bytecode args
          vmFrames := { top with
            ip := g.bytecode.entry
            argc := args.length } :: rest
          ip := g.bytecode.entry }

/-- `OP_RET`, and the end of a tail call that was not one, in an activation that
began at `startSp` and `baseFrame`: the last frame goes, and the one before it is
the caller. -/
def return_ (startSp baseFrame : Nat) (g : VmState) (v : Val) :
    Outcome Error Next :=
  match g.vmFrames with
  | [] => .undefined
  | _ :: frames =>
      if frames.length = baseFrame then do
        let c ← v.deref g.interp
        .value (.done ⟨c, g.vmStack.take startSp, frames, g.interp⟩)
      else
        match frames with
        | [] => .undefined
        | caller :: _ =>
            .value (.goOn
              { g with
                vmStack := g.vmStack.take g.fp ++ [v]
                vmFrames := frames
                bytecode := caller.bytecode
                ip := caller.ip
                fp := caller.fp
                currentSelf := caller.selfCell })

/-- One instruction. -/
def step (ctx : MachineContext) (startSp baseFrame : Nat) (out : Outside)
    (g : VmState) : Outcome Error Next := do
  let (b, m) ← g.registers.byte
  match VmOpcode.ofByte b with
  | none => .undefined
  | some .ret => do
      let (v, m) ← m.pop
      return_ startSp baseFrame (g.load m) v
  | some .call => do
      let callee ← m.callee ctx
      match callee with
      | .compiled m args bc self => do
          let g ← (g.load m).enter m.vmStack args bc self
          .value (.goOn g)
      | .result m v =>
          .value (.goOn
            { (g.load m).push v with vmFrames := out.leak ++ g.vmFrames })
  | some .callSelf => do
      let (argc, m) ← m.byte
      let (below, args) ← m.topOf argc.toNat
      let g ← (g.load m).enter below args g.bytecode g.currentSelf
      .value (.goOn g)
  | some .tailCall => do
      let callee ← m.callee ctx
      match callee with
      | .compiled m args bc self => do
          let g ← (g.load m).reenter args bc self
          .value (.goOn g)
      | .result m v =>
          return_ startSp baseFrame
            { g.load m with vmFrames := out.leak ++ g.vmFrames } v
  | some .tailCallSelf => do
      let (argc, m) ← m.byte
      let (_, args) ← m.topOf argc.toNat
      let g ← (g.load m).reenterSelf args
      .value (.goOn g)
  | some op =>
      -- `return errorProc(ERR_MATH)`, which comes back when it is traced
      if out.traced && m.dividesByZero op then
        .value (.done ⟨.nil, m.vmStack.take (m.vmStack.length - 2),
          g.vmFrames, m.interp⟩)
      else do
        let m ← m.execute ctx op
        if out.leak.isEmpty then .value (.goOn (g.load m)) else .undefined

/-- `executeBytecode` above `stack` and `frames`, its arguments evaluated. -/
def start (stack : List Val) (frames : List VmFrame) (bc : Bytecode)
    (self : Cell) (args : List Val) (σ : Interp) : VmState where
  vmStack := stack ++ frameOf bc args
  vmFrames := ⟨bc, bc.entry, stack.length, max args.length bc.numParams, self⟩ ::
    frames
  bytecode := bc
  ip := bc.entry
  fp := stack.length
  currentSelf := self
  interp := σ

/-- The instruction divides by zero. -/
def dividesByZero (g : VmState) : Bool :=
  match g.registers.byte with
  | .value (b, m) => (VmOpcode.ofByte b).any m.dividesByZero
  | _ => false

/-- An instruction is left nothing by a call, and does not divide by zero under
`traceFlag`. -/
structure Quiet (g : VmState) (out : Outside) : Prop where
  leak : out.leak = []
  divides : out.traced = true → g.dividesByZero = false

end VmState

/-- The states of an activation of `executeBytecode` on functions in range, begun
above `stack` and `frames`, whose instructions meet what `P` allows. -/
inductive VmRun (ctx : MachineContext) (stack : List Val)
    (frames : List VmFrame) (P : VmState → Outside → Prop) : VmState → Prop where
  | start (bc : Bytecode) (self : Cell) (args : List Val) (σ : Interp)
      (hrange : bc.InRange) :
      VmRun ctx stack frames P (VmState.start stack frames bc self args σ)
  | step {g g' : VmState} (out : Outside) (h : VmRun ctx stack frames P g)
      (hout : P g out)
      (hstep : g.step ctx stack.length frames.length out = .value (.goOn g'))
      (hrange : g'.bytecode.InRange) :
      VmRun ctx stack frames P g'

/-- Heights for the functions of every run. -/
theorem exists_maps : ∃ maps : Bytecode → Nat → Option Nat,
    ∀ bc : Bytecode, bc.InRange → ∃ code, HasHeights bc code (maps bc) := by
  have hone : ∀ bc : Bytecode, ∃ height, bc.InRange →
      ∃ code, HasHeights bc code height := by
    intro bc
    by_cases hbc : bc.InRange
    · obtain ⟨cctx, contents, hcompile, hrange⟩ := hbc
      obtain ⟨height, hheight, -⟩ := exists_heights hcompile hrange
      exact ⟨height, fun _ => ⟨_, hheight⟩⟩
    · exact ⟨fun _ => none, fun hin => absurd hin hbc⟩
  choose maps hmaps using hone
  exact ⟨maps, hmaps⟩

section Fed

variable {ctx : MachineContext} {maps : Bytecode → Nat → Option Nat}
  {m m₁ : Machine} {n k : Nat} {slots : List Nat}

/-- In a run the operands of the next instruction are on the frame. -/
theorem Disciplined.operands
    (hmaps : ∀ bc : Bytecode, bc.InRange →
      ∃ code, HasHeights bc code (maps bc))
    (h : Disciplined maps m n slots k) {b : UInt8} {op : VmOpcode}
    (hb : m.byte = .value (b, m₁)) (hop : VmOpcode.ofByte b = some op) :
    (⟨op, m₁.argc⟩ : Instr).pops ≤ k ∧
      (op.isJump = true → op.jumpPops ≤ k) := by
  obtain ⟨code, hheights⟩ := hmaps _ h.inRange
  obtain ⟨item, hmem, hstands, hleads⟩ := hheights.item_at h.at_height
  obtain ⟨hcode, hmoves⟩ := Moves.byte hb
  cases item with
  | jump op' t =>
      obtain ⟨⟨hjump, hpops⟩, -, -⟩ := hleads
      have hbefore : m.Before (op'.toByte :: _) := hstands
      have hsame : some b = some op'.toByte := hcode.symm.trans hbefore.1
      rw [Option.some.inj hsame, VmOpcode.ofByte_toByte] at hop
      obtain rfl := Option.some.inj hop
      refine ⟨?_, fun _ => hpops⟩
      cases op' <;> first | exact Nat.zero_le _ | cases hjump
  | instr i =>
      obtain ⟨op', arg⟩ := i
      obtain ⟨⟨hpops, hjump, -⟩, -⟩ := hleads
      obtain ⟨o, -, hbefore, hbytes⟩ := hstands
      have hsame : some b = some op'.toByte := hcode.symm.trans hbefore.1
      rw [Option.some.inj hsame, VmOpcode.ofByte_toByte] at hop
      obtain rfl := Option.some.inj hop
      refine ⟨?_, fun hj => absurd hj (by simp [hjump])⟩
      have hargs : op'.operandWidth = 1 → arg < 256 :=
        hheights.inRange.args.of_mem_items hmem
      have hargc : ∀ hop : (⟨op', arg⟩ : Instr).argBytes =
          some [UInt8.ofNat arg], arg < 256 → m₁.argc = arg := by
        intro hop harg
        have hnext : m.bytecode.code[m.ip + 1]? = some (UInt8.ofNat arg) := by
          have hall : CodeAt m.bytecode.code m.ip (op'.toByte :: o) := hbefore
          rw [hbytes _ hop, CodeAt.cons_iff, CodeAt.cons_iff] at hall
          exact hall.2.1
        rw [argc_eq (b := UInt8.ofNat arg)
          (by rw [hmoves.bytecode, hmoves.ip, hnext]), UInt8.toNat_ofNat']
        omega
      cases op' with
      | call | callSelf | tailCall | tailCallSelf =>
          rw [hargc rfl (hargs rfl)]
          exact hpops
      | _ => exact hpops

/-- They are on the stack. -/
theorem Disciplined.fed
    (hmaps : ∀ bc : Bytecode, bc.InRange →
      ∃ code, HasHeights bc code (maps bc))
    (h : Disciplined maps m n slots k) {b : UInt8} {op : VmOpcode}
    (hb : m.byte = .value (b, m₁)) (hop : VmOpcode.ofByte b = some op) :
    Fed op m₁ := by
  obtain ⟨hpops, hjump⟩ := h.operands hmaps hb hop
  have hlen := h.height
  have hlen₁ := (Moves.byte hb).2.height
  exact ⟨by omega, fun hj => by have := hjump hj; omega⟩

end Fed

section Params

variable {cctx : CompileContext} {contents : List Cell} {bc : Bytecode}

theorem compileParams_le {params : List Cell} {inLocals : Bool}
    {locals locals' : List (Option Symbol)} {n n' : Nat}
    (h : compileParams params inLocals locals n = .value (locals', n'))
    (hn : n ≤ locals.length) : n' ≤ locals'.length := by
  induction params generalizing inLocals locals n with
  | nil =>
      simp only [compileParams, Outcome.value.injEq, Prod.mk.injEq] at h
      obtain ⟨rfl, rfl⟩ := h
      exact hn
  | cons param params ih =>
      cases param with
      | symbol s =>
          simp only [compileParams] at h
          split at h
          · exact ih h hn
          · split at h
            · cases h
            · refine ih h ?_
              rw [List.length_append, List.length_singleton]
              split <;> omega
      | _ => cases h

/-- The parameters are among the locals. -/
theorem Bytecode.InRange.params_le (h : bc.InRange) :
    bc.numParams ≤ bc.numLocals := by
  obtain ⟨cctx, contents, hcompile, -⟩ := h
  unfold compileLambda at hcompile
  split at hcompile
  · rename_i params body
    simp only [Outcome.bind_eq_value_iff, Prod.exists,
      Outcome.value.injEq] at hcompile
    obtain ⟨locals, n, hparams, c, hc, rfl⟩ := hcompile
    have hbody := compileBody_lays (smallLays cctx (sizeOf body + 1))
      (Nat.lt_succ_self _) hc
    have hle : locals.length ≤ c.maxLocals := (hbody.slots le_rfl).2.1
    exact (compileParams_le hparams (Nat.zero_le _)).trans hle
  · cases hcompile

end Params

section Stays

variable {ctx : MachineContext} {m m' : Machine}

theorem jump_stays {offset : Int} (h : m.jump offset = .value m') :
    Stays m m' 0 := by
  unfold jump at h
  split at h
  · obtain rfl := Outcome.value.inj h
    exact ⟨rfl, rfl, rfl, rfl, by simp⟩
  · cases h

/-- An instruction that calls nothing stays in its frame. -/
theorem execute_stays {op : VmOpcode} (hcall : op ≠ .call)
    (hself : op ≠ .callSelf) (htail : op ≠ .tailCallSelf)
    (h : m.execute ctx op = .value m') : ∃ d, Stays m m' d := by
  by_cases hop : op.staysOn = true
  · exact ⟨_, (execute_moves hop h 0).toStays⟩
  cases op with
  | jump =>
      simp only [execute, Outcome.bind_eq_value_iff, Prod.exists] at h
      obtain ⟨offset, m₁, ho, hj⟩ := h
      exact ⟨_, (Moves.int16 ho).toStays.trans (jump_stays hj)⟩
  | jumpIfNil | jumpIfNotNil =>
      simp only [execute, jumpIf, Outcome.bind_eq_value_iff, Prod.exists] at h
      obtain ⟨offset, m₁, ho, c, m₂, hc, hj⟩ := h
      have hmoves := ((Moves.int16 ho).trans (Moves.popCell hc)).toStays
      split at hj
      · exact ⟨_, hmoves.trans (jump_stays hj)⟩
      · exact ⟨_, Outcome.value.inj hj ▸ hmoves⟩
  | call => exact absurd rfl hcall
  | callSelf => exact absurd rfl hself
  | tailCallSelf => exact absurd rfl htail
  | ret | tailCall => cases h
  | _ => exact absurd rfl hop

end Stays

/-- The frames of an activation: that of the running function on those of its
callers, above `frames`. -/
structure Recorded (frames : List VmFrame) (g : VmState) (top : VmFrame)
    (own : List VmFrame) : Prop where
  vmFrames : g.vmFrames = top :: (own ++ frames)
  bytecode : top.bytecode = g.bytecode
  fp : top.fp = g.fp
  self : top.selfCell = g.currentSelf
  code : g.ip.code = g.bytecode.code
  codes : ∀ f ∈ own, f.ip.code = f.bytecode.code

/-- The VM holds `m` above the stack and the frames its activation began with,
on frames of so many slots. -/
structure Embeds (stack : List Val) (frames : List VmFrame) (g : VmState)
    (m : Machine) (slots : List Nat) : Prop where
  registers : g.registers = m.lift stack (frames.map VmFrame.suspended)
  recorded : ∃ top own, Recorded frames g top own ∧
    slots = (top :: own).map VmFrame.slots

namespace Embeds

variable {stack : List Val} {frames : List VmFrame} {g g' : VmState}
  {m m' : Machine} {slots : List Nat} {ctx : MachineContext}

/-- The frames of the activation are those of the machine. -/
theorem suspended (h : Embeds stack frames g m slots) {top : VmFrame}
    {own : List VmFrame} (hrec : Recorded frames g top own) :
    own.map VmFrame.suspended = m.frames.map (Frame.lift stack.length) := by
  have hframes := congrArg Machine.frames h.registers
  simpa [VmState.registers, Machine.lift, hrec.vmFrames] using hframes

theorem bytecode (h : Embeds stack frames g m slots) :
    g.bytecode = m.bytecode := by
  obtain ⟨top, own, hrec, -⟩ := h.recorded
  have hbc := congrArg Machine.bytecode h.registers
  simpa [VmState.registers, Machine.lift, hrec.code] using hbc

/-- How many frames there are. -/
theorem count (h : Embeds stack frames g m slots) :
    g.vmFrames.length = m.frames.length + 1 + frames.length := by
  obtain ⟨top, own, hrec, -⟩ := h.recorded
  have hlen := congrArg List.length (h.suspended hrec)
  simp only [List.length_map] at hlen
  rw [hrec.vmFrames, List.length_cons, List.length_append]
  omega

theorem ip (h : Embeds stack frames g m slots) : g.ip.offset = m.ip :=
  congrArg Machine.ip h.registers

theorem fp (h : Embeds stack frames g m slots) :
    g.fp = stack.length + m.fp := congrArg Machine.fp h.registers

theorem vmStack (h : Embeds stack frames g m slots) :
    g.vmStack = stack ++ m.vmStack := congrArg Machine.vmStack h.registers

theorem interp (h : Embeds stack frames g m slots) : g.interp = m.interp :=
  congrArg Machine.interp h.registers

theorem currentSelf (h : Embeds stack frames g m slots) :
    g.currentSelf = m.currentSelf := congrArg Machine.currentSelf h.registers

theorem start (bc : Bytecode) (self : Cell) (args : List Val) (σ : Interp) :
    Embeds stack frames (VmState.start stack frames bc self args σ)
      (Machine.start bc self args σ) [(frameOf bc args).length] where
  registers := by simp [VmState.start, VmState.registers, Machine.start,
    Machine.lift, Bytecode.entry]
  recorded := ⟨_, [], ⟨rfl, rfl, rfl, rfl, rfl, by simp⟩, by
    simp [VmFrame.slots, frameOf_length, max_comm, max_left_comm]⟩

/-- An instruction that stays in its function. -/
theorem load {d : Int} (h : Embeds stack frames g m slots)
    (hstays : Stays m m' d) : Embeds stack frames
      (g.load (m'.lift stack (frames.map VmFrame.suspended))) m' slots where
  registers := by
    obtain ⟨vmStack, bc, ip, fp, self, fs, σ⟩ := m'
    obtain ⟨rfl, rfl, rfl, rfl, -⟩ := hstays
    have hregisters := h.registers
    simp only [VmState.registers, Machine.lift, Machine.mk.injEq] at hregisters
    simp [VmState.registers, VmState.load, Machine.lift, hregisters]
  recorded := by
    obtain ⟨top, own, hrec, hslots⟩ := h.recorded
    exact ⟨top, own, ⟨hrec.vmFrames, hrec.bytecode, hrec.fp, hrec.self,
      hrec.code, hrec.codes⟩, hslots⟩

/-- A call of compiled code. -/
theorem enter {below args : List Val} {bc : Bytecode} {self : Cell}
    (h : Embeds stack frames g m slots)
    (henter : g.enter (stack ++ below) args bc self = .value g') :
    ∃ m', m.enter below args bc self = .value m' ∧
      Embeds stack frames g' m' ((frameOf bc args).length :: slots) := by
  obtain ⟨top, own, hrec, hslots⟩ := h.recorded
  have howns := h.suspended hrec
  unfold VmState.enter at henter
  unfold Machine.enter
  split at henter
  · cases henter
  · rename_i hmany
    simp only [hrec.vmFrames, Outcome.value.injEq] at henter
    subst henter
    rw [if_neg hmany]
    refine ⟨_, rfl, ?_, _, { top with ip := g.ip } :: own,
      ⟨rfl, rfl, rfl, rfl, rfl, ?_⟩, ?_⟩
    · simp [VmState.registers, Machine.lift, Bytecode.entry, h.interp, howns,
        VmFrame.suspended, Frame.lift, hrec.bytecode, hrec.fp, hrec.self,
        h.bytecode, h.ip, h.fp, h.currentSelf]
    · simpa [hrec.bytecode, hrec.code] using hrec.codes
    · simp [hslots, VmFrame.slots, frameOf_length, max_comm, max_left_comm]

/-- The slots a tail call records are those it leaves on the stack. -/
theorem slots_reenter {bc : Bytecode} {args : List Val} (hrange : bc.InRange) :
    max args.length bc.numLocals = (frameOf bc args).length := by
  have hle := hrange.params_le
  rw [frameOf_length]
  omega

/-- A tail call of compiled code. -/
theorem reenter {args : List Val} {bc : Bytecode} {self : Cell}
    (h : Embeds stack frames g m slots) (hrange : bc.InRange)
    (hreenter : g.reenter args bc self = .value g') :
    Embeds stack frames g' (m.reenter args bc self)
      ((frameOf bc args).length :: slots.tail) := by
  obtain ⟨top, own, hrec, hslots⟩ := h.recorded
  have howns := h.suspended hrec
  simp only [VmState.reenter, hrec.vmFrames, Outcome.value.injEq] at hreenter
  subst hreenter
  refine ⟨?_, _, own, ⟨rfl, rfl, rfl, rfl, rfl, hrec.codes⟩, ?_⟩
  · simp [VmState.registers, Machine.lift, Machine.reenter, Bytecode.entry,
      h.interp, howns, h.vmStack, h.fp, List.take_length_add_append]
  · simp [hslots, VmFrame.slots, slots_reenter hrange]

theorem bytecode_reenter {args : List Val} {bc : Bytecode} {self : Cell}
    (hreenter : g.reenter args bc self = .value g') : g'.bytecode = bc := by
  unfold VmState.reenter at hreenter
  split at hreenter
  · cases hreenter
  · exact Outcome.value.inj hreenter ▸ rfl

/-- A tail call of the running function. -/
theorem reenterSelf {args : List Val} (h : Embeds stack frames g m slots)
    (hrange : m.bytecode.InRange) (hreenter : g.reenterSelf args = .value g') :
    Embeds stack frames g' (m.reenter args m.bytecode m.currentSelf)
      ((frameOf m.bytecode args).length :: slots.tail) := by
  obtain ⟨top, own, hrec, hslots⟩ := h.recorded
  have howns := h.suspended hrec
  simp only [VmState.reenterSelf, hrec.vmFrames, Outcome.value.injEq]
    at hreenter
  subst hreenter
  refine ⟨?_, _, own, ⟨rfl, hrec.bytecode, hrec.fp, hrec.self, rfl,
    hrec.codes⟩, ?_⟩
  · simp [VmState.registers, Machine.lift, Machine.reenter, Bytecode.entry,
      h.interp, howns, h.vmStack, h.fp, List.take_length_add_append,
      h.bytecode, h.currentSelf]
  · simp [hslots, VmFrame.slots, hrec.bytecode, h.bytecode,
      slots_reenter hrange]

/-- A return leads to the caller in the activation, or out of it with the arrays
it began with. -/
theorem return_ {v : Val} {next : VmState.Next}
    (h : Embeds stack frames g m slots)
    (hreturn : g.return_ stack.length frames.length v = .value next) :
    (∃ r, next = .done r ∧ r.vmStack = stack ∧ r.vmFrames = frames ∧
      m.return_ v = .value (.done (r.value, r.interp))) ∨
    ∃ g' m', next = .goOn g' ∧ m.return_ v = .value (.goOn m') ∧
      Embeds stack frames g' m' slots.tail := by
  obtain ⟨top, own, hrec, hslots⟩ := h.recorded
  have howns := h.suspended hrec
  simp only [VmState.return_, hrec.vmFrames] at hreturn
  cases own with
  | nil =>
      have hnone : m.frames = [] := by simpa using howns.symm
      simp only [List.nil_append, if_true, Outcome.bind_eq_value_iff,
        Outcome.value.injEq] at hreturn
      obtain ⟨c, hc, rfl⟩ := hreturn
      refine .inl ⟨_, rfl, ?_, rfl, ?_⟩
      · rw [h.vmStack, List.take_left]
      · rw [h.interp] at hc
        simp [Machine.return_, hnone, hc, h.interp]
  | cons caller own =>
      obtain ⟨f, fs, hfs⟩ : ∃ f fs, m.frames = f :: fs := by
        cases hframes : m.frames with
        | nil => simp [hframes] at howns
        | cons f fs => exact ⟨f, fs, rfl⟩
      rw [hfs, List.map_cons, List.map_cons, List.cons.injEq] at howns
      obtain ⟨hcaller, hothers⟩ := howns
      simp only [VmFrame.suspended, Frame.lift, Frame.mk.injEq] at hcaller
      obtain ⟨hbc, hip, hfp, hself⟩ := hcaller
      have hcode := hrec.codes caller List.mem_cons_self
      rw [if_neg (by simp; omega)] at hreturn
      obtain rfl := Outcome.value.inj hreturn
      refine .inr ⟨_, _, rfl, by rw [Machine.return_, hfs], ?_, caller, own,
        ⟨rfl, rfl, rfl, rfl, hcode, fun f hf => hrec.codes f ?_⟩, ?_⟩
      · simp [VmState.registers, Machine.lift, h.interp, hothers, h.vmStack,
          h.fp, List.take_length_add_append, hbc, hip, hfp, hself, hcode]
      · exact List.mem_cons_of_mem _ hf
      · simp [hslots]

end Embeds

/-- What the VM does in an instruction is what the machine `m` does, and the
last instruction leaves the arrays as they were. -/
def VmFollows (ctx : MachineContext) (stack : List Val) (frames : List VmFrame)
    (m : Machine) (slots : List Nat) : VmState.Next → Prop
  | .done r => r.vmStack = stack ∧ r.vmFrames = frames ∧
      m.step ctx = .value (.done (r.value, r.interp))
  | .goOn g => g.bytecode.InRange → ∃ m', m.step ctx = .value (.goOn m') ∧
      Embeds stack frames g m' (slotsAfter m m' slots)

namespace Embeds

variable {stack : List Val} {frames : List VmFrame} {g g' : VmState}
  {m m₁ m' : Machine} {slots : List Nat} {ctx : MachineContext} {d : Int}
  {op : VmOpcode}

theorem follows_return {v : Val} {next : VmState.Next}
    (h : Embeds stack frames g m₁ slots) (hstays : Stays m m₁ d)
    (hopcode : m.opcode = some op) (hop : op = .ret ∨ op = .tailCall)
    (hstep : m.step ctx = m₁.return_ v)
    (hreturn : g.return_ stack.length frames.length v = .value next) :
    VmFollows ctx stack frames m slots next := by
  rcases h.return_ hreturn with ⟨r, rfl, hsp, hcount, hdone⟩ |
    ⟨g', m', rfl, hgo, hnext⟩
  · exact ⟨hsp, hcount, hstep.trans hdone⟩
  · refine fun _ => ⟨m', hstep.trans hgo, ?_⟩
    rcases return_cases hgo with ⟨-, r, hdone⟩ |
      ⟨f, fs, m₂, hframes, hgo', -, -, -, hframes', -⟩
    · cases hdone
    · obtain rfl : m' = m₂ := by simpa using hgo'
      rw [hstays.frames] at hframes
      have hlt : m'.frames.length < m.frames.length := by
        rw [hframes, hframes', List.length_cons]
        exact Nat.lt_succ_self _
      rcases hop with rfl | rfl
      · simpa only [slotsAfter, hopcode] using hnext
      · simpa only [slotsAfter, hopcode, if_pos hlt] using hnext

/-- A function is entered on a frame of its own. -/
theorem follows_enter {below args : List Val} {bc : Bytecode} {self : Cell}
    (h : Embeds stack frames g m₁ slots) (hstays : Stays m m₁ d)
    (hopcode : m.opcode = some op) (hop : op = .call ∨ op = .callSelf)
    (hstep : m.step ctx =
      m₁.enter below args bc self >>= fun m => .value (.goOn m))
    (henter : g.enter (stack ++ below) args bc self = .value g') :
    VmFollows ctx stack frames m slots (.goOn g') := by
  intro _
  obtain ⟨m', hm', hnext⟩ := h.enter henter
  refine ⟨m', by rw [hstep, hm', Outcome.value_bind], ?_⟩
  unfold Machine.enter at hm'
  split at hm'
  · cases hm'
  obtain rfl := Outcome.value.inj hm'
  rcases hop with rfl | rfl
  all_goals simpa [slotsAfter, hopcode, hstays.frames] using hnext

/-- A function takes over the frame. -/
theorem follows_reenter {args : List Val} {bc : Bytecode} {self : Cell}
    (hnext : g'.bytecode.InRange →
      Embeds stack frames g' (m₁.reenter args bc self)
        ((frameOf bc args).length :: slots.tail))
    (hstays : Stays m m₁ d) (hfp : m₁.fp ≤ m₁.vmStack.length)
    (hopcode : m.opcode = some op) (hop : op = .tailCall ∨ op = .tailCallSelf)
    (hstep : m.step ctx = .value (.goOn (m₁.reenter args bc self))) :
    VmFollows ctx stack frames m slots (.goOn g') := by
  refine fun hrange => ⟨_, hstep, ?_⟩
  have hnext := hnext hrange
  have hlen : (m₁.reenter args bc self).vmStack.length -
      (m₁.reenter args bc self).fp = (frameOf bc args).length := by
    simp only [Machine.reenter, List.length_append, List.length_take]
    omega
  have hframes : (m₁.reenter args bc self).frames = m.frames := hstays.frames
  rcases hop with rfl | rfl
  all_goals simpa [slotsAfter, hopcode, hlen, hframes] using hnext

/-- The slots stay when no function is entered or left. -/
theorem slotsAfter_stays (hstays : Stays m m' d) (hopcode : m.opcode = some op)
    (htail : op ≠ .tailCall) (hself : op ≠ .tailCallSelf) (hret : op ≠ .ret)
    (slots : List Nat) : slotsAfter m m' slots = slots := by
  simp only [slotsAfter, hopcode]
  cases op with
  | call | callSelf => simp [hstays.frames]
  | tailCall => exact absurd rfl htail
  | tailCallSelf => exact absurd rfl hself
  | ret => exact absurd rfl hret
  | _ => rfl

theorem follows_stays (hnext : Embeds stack frames g' m' slots)
    (hstays : Stays m m' d) (hopcode : m.opcode = some op)
    (htail : op ≠ .tailCall) (hself : op ≠ .tailCallSelf) (hret : op ≠ .ret)
    (hstep : m.step ctx = .value (.goOn m')) :
    VmFollows ctx stack frames m slots (.goOn g') :=
  fun _ => ⟨m', hstep,
    (slotsAfter_stays hstays hopcode htail hself hret slots).symm ▸ hnext⟩

/-- An instruction that neither returns nor is a tail call. -/
theorem step_execute {b : UInt8} (hb : m.byte = .value (b, m₁))
    (hop : VmOpcode.ofByte b = some op) (hret : op ≠ .ret)
    (htail : op ≠ .tailCall) : m.step ctx =
      m₁.execute ctx op >>= fun m => .value (.goOn m) := by
  simp only [Machine.step, hb, hop, Outcome.value_bind]

/-- One instruction that is left nothing. -/
theorem step {maps : Bytecode → Nat → Option Nat} {n k : Nat} {out : Outside}
    {next : VmState.Next}
    (hmaps : ∀ bc : Bytecode, bc.InRange →
      ∃ code, HasHeights bc code (maps bc))
    (h : Embeds stack frames g m (n :: slots))
    (hm : Disciplined maps m n slots k) (hquiet : g.Quiet out)
    (hstep : g.step ctx stack.length frames.length out = .value next) :
    VmFollows ctx stack frames m (n :: slots) next := by
  simp only [VmState.step, h.registers, lift_byte, Outcome.bind_assoc,
    Outcome.value_bind, Outcome.bind_eq_value_iff, Prod.exists] at hstep
  obtain ⟨b, m₁, hb, hstep⟩ := hstep
  obtain ⟨hcode, hmoves⟩ := Moves.byte hb
  cases hop : VmOpcode.ofByte b with
  | none => simp [hop] at hstep
  | some op =>
      have hopcode : m.opcode = some op := by
        rw [Machine.opcode, hcode, Option.bind_some, hop]
      obtain ⟨hpops, hjump⟩ := hm.fed hmaps hb hop
      have hdivides : (out.traced && (m₁.lift stack
          (frames.map VmFrame.suspended)).dividesByZero op) = false := by
        have hnot := hquiet.divides
        simp only [VmState.dividesByZero, h.registers, lift_byte, hb,
          Outcome.value_bind, hop, Option.any_some] at hnot
        cases htraced : out.traced with
        | false => rfl
        | true => exact hnot htraced
      have hleak := hquiet.leak
      have hstays := hmoves.toStays
      have hheight := hmoves.height
      have hargs : ∀ b', m₁.bytecode.code[m₁.ip]? = some b' →
          m₁.argc = b'.toNat := fun b' => argc_eq
      simp only [hop] at hstep
      cases op with
      | ret =>
          simp only [lift_pop hpops, Outcome.bind_assoc, Outcome.value_bind,
            Outcome.bind_eq_value_iff, Prod.exists] at hstep
          obtain ⟨v, m₂, hpop, hreturn⟩ := hstep
          have hall := (hmoves.trans (Moves.pop hpop)).toStays
          refine (h.load hall).follows_return hall hopcode (.inl rfl) ?_ hreturn
          simp only [Machine.step, hb, hop, hpop, Outcome.value_bind]
      | call =>
          have hlift : (m₁.lift stack (frames.map VmFrame.suspended)).callee
              ctx = _ := lift_callee fun b' hb' => hargs b' hb' ▸ hpops
          have hcall : m.step ctx = m₁.callee ctx >>= Callee.call >>=
              fun m => .value (.goOn m) := by
            rw [step_execute hb hop (by simp) (by simp), ← call_eq]
            rfl
          simp only [hlift, Outcome.bind_assoc, Outcome.value_bind,
            Outcome.bind_eq_value_iff] at hstep
          obtain ⟨c, hc, hstep⟩ := hstep
          rw [hc, Outcome.value_bind] at hcall
          have hall := hstays.trans (callee_stays hc)
          cases c with
          | compiled m₂ args bc self =>
              simp only [Callee.lift, Outcome.bind_eq_value_iff,
                Outcome.value.injEq] at hstep
              obtain ⟨g', henter, rfl⟩ := hstep
              exact (h.load hall).follows_enter hall hopcode (.inl rfl) hcall
                henter
          | result m₂ v =>
              simp only [Callee.lift, hleak, List.nil_append,
                Outcome.value.injEq] at hstep
              obtain rfl := hstep
              have hpush := hall.trans (Moves.push m₂ v).toStays
              refine follows_stays ?_ hpush hopcode (by simp) (by simp)
                (by simp) hcall
              have hload := h.load hpush
              simpa [VmState.load, VmState.push, Machine.push, Machine.lift]
                using hload
      | callSelf =>
          have hargc : m₁.argc ≤ m₁.vmStack.length := hpops
          simp only [Outcome.bind_eq_value_iff, Prod.exists,
            Outcome.value.injEq] at hstep
          obtain ⟨b', m₂, hb', below, args, htop, g', henter, rfl⟩ := hstep
          have hmoves' := (Moves.byte hb').2
          have hheight' := hmoves'.height
          rw [hargs b' (Moves.byte hb').1] at hargc
          obtain ⟨below, args, htop, ⟨⟩⟩ := topOf_of_lift (by omega) htop
          have hall := hstays.trans hmoves'.toStays
          rw [h.bytecode, h.currentSelf, ← hall.bytecode, ← hall.currentSelf]
            at henter
          refine (h.load hall).follows_enter hall hopcode (.inr rfl) ?_ henter
          simp only [step_execute hb hop (by simp) (by simp), execute, callSelf,
            hb', htop, Outcome.value_bind]
      | tailCall =>
          have hlift : (m₁.lift stack (frames.map VmFrame.suspended)).callee
              ctx = _ := lift_callee fun b' hb' => hargs b' hb' ▸ hpops
          have htail : m.step ctx = m₁.callee ctx >>= Callee.tailCall := by
            rw [← tailCall_eq]
            simp only [Machine.step, hb, hop, Outcome.value_bind]
          simp only [hlift, Outcome.bind_assoc, Outcome.value_bind,
            Outcome.bind_eq_value_iff] at hstep
          obtain ⟨c, hc, hstep⟩ := hstep
          rw [hc, Outcome.value_bind] at htail
          have hall := hstays.trans (callee_stays hc)
          cases c with
          | compiled m₂ args bc self =>
              simp only [Callee.lift, Outcome.bind_eq_value_iff,
                Outcome.value.injEq] at hstep
              obtain ⟨g', hreenter, rfl⟩ := hstep
              have hlen := hall.height
              have hfp := hall.fp
              have hpops : m₁.argc + 1 ≤ k := (hm.operands hmaps hb hop).1
              have hheights := hm.height
              refine follows_reenter (fun hrange => (h.load hall).reenter ?_
                hreenter) hall ?_ hopcode (.inl rfl) htail
              · simpa only [bytecode_reenter hreenter] using hrange
              · omega
          | result m₂ v =>
              simp only [Callee.lift, hleak, List.nil_append] at hstep
              exact (h.load hall).follows_return hall hopcode (.inr rfl) htail
                hstep
      | tailCallSelf =>
          have hargc : m₁.argc ≤ m₁.vmStack.length := hpops
          simp only [Outcome.bind_eq_value_iff, Prod.exists,
            Outcome.value.injEq] at hstep
          obtain ⟨b', m₂, hb', below, args, htop, g', hreenter, rfl⟩ := hstep
          have hmoves' := (Moves.byte hb').2
          have hheight' := hmoves'.height
          rw [hargs b' (Moves.byte hb').1] at hargc
          obtain ⟨below, args, htop, ⟨⟩⟩ := topOf_of_lift (by omega) htop
          have hall := hstays.trans hmoves'.toStays
          have hnext := (h.load hall).reenterSelf
            (hall.bytecode ▸ hm.inRange) hreenter
          have hfp := hm.height
          have hlen := hall.height
          refine follows_reenter (fun _ => hnext) hall ?_ hopcode (.inr rfl) ?_
          · rw [hall.fp]
            omega
          · simp only [step_execute hb hop (by simp) (by simp), execute,
              tailCallSelf, hb', htop, Outcome.value_bind]
      | _ =>
          simp only [hdivides, Bool.false_eq_true, if_false, hleak,
            List.isEmpty_nil, if_true, lift_execute ⟨hpops, hjump⟩,
            Lifted, Outcome.bind_assoc, Outcome.value_bind,
            Outcome.bind_eq_value_iff, Outcome.value.injEq] at hstep
          obtain ⟨m₂, hexecute, rfl⟩ := hstep
          obtain ⟨d, hstays'⟩ := execute_stays (by simp) (by simp) (by simp)
            hexecute
          have hall := hstays.trans hstays'
          refine follows_stays (h.load hall) hall hopcode (by simp) (by simp)
            (by simp) ?_
          rw [step_execute hb hop (by simp) (by simp), hexecute,
            Outcome.value_bind]

/-- A division by zero under `traceFlag` returns in the middle of the code: it
takes its operands and leaves the frames. -/
theorem step_divides {maps : Bytecode → Nat → Option Nat} {n k : Nat}
    {out : Outside} {r : VmReturn}
    (hmaps : ∀ bc : Bytecode, bc.InRange →
      ∃ code, HasHeights bc code (maps bc))
    (h : Embeds stack frames g m (n :: slots))
    (hm : Disciplined maps m n slots k) (hzero : g.dividesByZero = true)
    (htraced : out.traced = true)
    (hstep : g.step ctx stack.length frames.length out = .value (.done r)) :
    r.vmFrames = g.vmFrames ∧ ∃ rest, r.vmStack = stack ++ rest := by
  simp only [VmState.dividesByZero, h.registers, lift_byte] at hzero
  simp only [VmState.step, h.registers, lift_byte, Outcome.bind_assoc,
    Outcome.value_bind, Outcome.bind_eq_value_iff, Prod.exists] at hstep
  obtain ⟨b, m₁, hb, hstep⟩ := hstep
  rw [hb] at hzero
  cases hop : VmOpcode.ofByte b with
  | none => simp [hop] at hstep
  | some op =>
      obtain ⟨hpops, -⟩ := hm.operands hmaps hb hop
      have hlen := (Moves.byte hb).2.height
      have hheight := hm.height
      simp only [Outcome.value_bind, hop, Option.any_some] at hzero
      simp only [hop] at hstep
      cases op with
      | div | mod =>
          have htwo : 2 ≤ k := hpops
          simp only [htraced, hzero, Bool.and_self, if_true,
            Outcome.value.injEq, StepRun.Next.done.injEq] at hstep
          obtain rfl := hstep
          refine ⟨rfl, m₁.vmStack.take (m₁.vmStack.length - 2), ?_⟩
          have hcount : (stack ++ m₁.vmStack).length - 2 =
              stack.length + (m₁.vmStack.length - 2) := by
            rw [List.length_append]
            omega
          simp only [Machine.lift]
          rw [hcount, List.take_length_add_append]
      | _ => simp [Machine.dividesByZero] at hzero

end Embeds

namespace VmRun

variable {ctx : MachineContext} {stack : List Val} {frames : List VmFrame}
  {g : VmState}

/-- A run that nothing is left in is a run of the machine above the stack and
the frames it began with. -/
theorem embeds (h : VmRun ctx stack frames VmState.Quiet g) :
    ∃ m slots, Execution ctx m slots ∧ Embeds stack frames g m slots := by
  obtain ⟨maps, hmaps⟩ := exists_maps
  induction h with
  | start bc self args σ hrange =>
      exact ⟨_, _, .start bc self args σ hrange, .start bc self args σ⟩
  | step out _ hout hstep hrange ih =>
      obtain ⟨m, slots, hrun, hembeds⟩ := ih
      obtain ⟨n, rest, k, rfl, hm⟩ := hrun.disciplined hmaps
      obtain ⟨m', hstep', hnext⟩ :=
        hembeds.step hmaps hm hout hstep hrange
      exact ⟨m', _, hrun.step hstep' (hnext.bytecode ▸ hrange), hnext⟩

end VmRun

end NewLispNeo
