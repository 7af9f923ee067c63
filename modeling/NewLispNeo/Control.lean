/-
Control over the machine: activations of `executeBytecode` and of the forms
that catch errors on the C stack, and what `longjmp` to one of these restores.
-/
import NewLispNeo.VmFrames

namespace NewLispNeo

/-- `vm_stack` up to `vm_sp` and `vm_frames` up to `vm_frame_count`, the first
entry first.  A frame is known by the number of the activation that pushed it. -/
structure Vm where
  stack : List Val
  frames : List Nat

/-- The registers of the interpreter. -/
structure Registers where
  vm : Vm
  envStackIdx : Nat
  lambdaStackIdx : Nat
  recursionCount : Nat
  currentContext : Symbol
  objSymbol : Cell
  objCell : Cell
  evalCatchFlag : Nat

/-- Where a `longjmp` can land: in `p_catch`, with a symbol or without one, in
`sysEvalString` with an error handler, or in `main`. -/
inductive Handler where
  | catch_ (symbol : Bool)
  | evalString
  | topLevel
deriving DecidableEq

/-- The value of a `longjmp`: `EXCEPTION_THROW` or an error, with the text of a
message in `errorStream` or without. -/
inductive Raised where
  | throw
  | error (message : Bool)

/-- A catch without a symbol passes an error with a message on. -/
def Handler.lands : Handler → Raised → Bool
  | .catch_ false, .error true => false
  | _, _ => true

/-- What the handlers restore of the registers they saved on their entry;
`reset` restores those of the start. -/
def Handler.recover (saved r : Registers) : Handler → Registers
  | .catch_ _ =>
      { r with
        envStackIdx := saved.envStackIdx
        recursionCount := saved.recursionCount
        lambdaStackIdx := saved.lambdaStackIdx
        currentContext := saved.currentContext
        objSymbol := saved.objSymbol
        objCell := saved.objCell
        evalCatchFlag := r.evalCatchFlag - 1 }
  | .evalString =>
      { r with
        envStackIdx := saved.envStackIdx
        evalCatchFlag := r.evalCatchFlag - 1
        recursionCount := saved.recursionCount
        currentContext := saved.currentContext }
  | .topLevel =>
      { r with
        envStackIdx := 0
        lambdaStackIdx := 0
        recursionCount := 0
        currentContext := ⟨"MAIN", "MAIN"⟩ }

/-- What is on the C stack: an `executeBytecode` that evaluates its arguments or
runs, with the variables it returns by, or a handler with the registers at its
entry. -/
inductive Activation where
  | arguments (startSp argc : Nat)
  | bytecode (startSp baseFrame number : Nat)
  | handler (h : Handler) (saved : Registers)

/-- The state of the interpreter: the C stack is innermost first. -/
structure Control where
  registers : Registers
  stack : List Activation
  number : Nat

/-- A handler left, by a return or by a jump to it, or an `executeBytecode` left
in the middle of its code: the machine at its entry and after it, and whether
compiled code has been aborted. -/
structure Exit where
  entry : Vm
  now : Vm
  aborts : Bool

/-- A `longjmp`: the handler it lands in, with the registers at its entry, the
rest of the C stack, and the registers now. -/
def unwind (x : Raised) : List Activation → Registers →
    Option (Handler × Registers × List Activation × Registers)
  | [], _ => none
  | .handler h saved :: rest, r =>
      let r := h.recover saved r
      if h.lands x then some (h, saved, rest, r) else unwind x rest r
  | _ :: rest, r => unwind x rest r

/-- The jump drops a function that runs or has an argument on the stack. -/
def aborts (x : Raised) : List Activation → Bool
  | [] => false
  | .handler h _ :: rest => !h.lands x && aborts x rest
  | .arguments _ argc :: rest => argc ≠ 0 || aborts x rest
  | .bytecode _ _ _ :: _ => true

/-- The C stack after a handler: `main` goes on with the next expression. -/
def Handler.resume (rest : List Activation) (r : Registers) :
    Handler → List Activation
  | .topLevel => .handler .topLevel r :: rest
  | _ => rest

/-- The frames of the machine from `base` on are those of one activation. -/
def Vm.Intact (vm : Vm) (base number : Nat) : Prop :=
  ∀ j ∈ vm.frames.drop base, j = number

/-- The registers after a handler that nothing was raised to. -/
def Handler.left (r : Registers) : Handler → Registers
  | .topLevel => r
  | _ => { r with evalCatchFlag := r.evalCatchFlag - 1 }

/-- The part of the machine below an activation is the same, and its frames are
there. -/
structure Vm.Above (vm vm' : Vm) (startSp base number : Nat) : Prop where
  stack : vm'.stack.take startSp = vm.stack.take startSp
  sp : startSp ≤ vm'.stack.length
  frames : vm'.frames.take base = vm.frames.take base
  count : base < vm'.frames.length
  own : vm'.Intact base number

namespace Control

/-- One step of the interpreter. -/
inductive Step : Control → Option Exit → Control → Prop where
  /-- The tree-walker goes on. -/
  | evaluate (c : Control) (r : Registers) (hvm : r.vm = c.registers.vm) :
      Step c none { c with registers := r }
  /-- `executeBytecode` begins. -/
  | call (c : Control) :
      Step c none { c with
        stack := .arguments c.registers.vm.stack.length 0 :: c.stack }
  | argument {c : Control} {startSp argc : Nat} {rest : List Activation}
      (v : Val) (h : c.stack = .arguments startSp argc :: rest) :
      Step c none { c with
        registers := { c.registers with vm := { c.registers.vm with
          stack := c.registers.vm.stack ++ [v] } }
        stack := .arguments startSp (argc + 1) :: rest }
  /-- It has padded its slots and pushes its frame. -/
  | enter {c : Control} {startSp argc : Nat} {rest : List Activation}
      (slots : List Val) (h : c.stack = .arguments startSp argc :: rest) :
      Step c none
        { registers := { c.registers with vm :=
            { stack := c.registers.vm.stack ++ slots
              frames := c.registers.vm.frames ++ [c.number] } }
          stack := .bytecode startSp c.registers.vm.frames.length c.number ::
            rest
          number := c.number + 1 }
  /-- An instruction, which keeps to the part of its activation as long as the
  frames there are its own. -/
  | instruction {c : Control} {startSp base number : Nat}
      {rest : List Activation} (vm : Vm)
      (h : c.stack = .bytecode startSp base number :: rest)
      (habove : c.registers.vm.Intact base number →
        c.registers.vm.Above vm startSp base number) :
      Step c none { c with registers := { c.registers with vm := vm } }
  /-- `OP_RET` from the last frame. -/
  | return_ {c : Control} {startSp base number : Nat} {rest : List Activation}
      (h : c.stack = .bytecode startSp base number :: rest)
      (hlast : c.registers.vm.frames.length = base + 1) :
      Step c none { c with
        registers := { c.registers with vm :=
          { stack := c.registers.vm.stack.take startSp
            frames := c.registers.vm.frames.take base } }
        stack := rest }
  /-- `OP_DIV` and `OP_MOD` return the value of `errorProc`, which comes back when
  `traceFlag` is set. -/
  | divisionError {c : Control} {startSp base number : Nat}
      {rest : List Activation}
      (h : c.stack = .bytecode startSp base number :: rest) :
      Step c
        (some ⟨⟨c.registers.vm.stack.take startSp,
          c.registers.vm.frames.take base⟩, c.registers.vm, true⟩)
        { c with stack := rest }
  /-- `p_catch` and `sysEvalString` begin. -/
  | install (c : Control) (h : Handler) (hinner : h ≠ .topLevel) :
      Step c none { c with
        registers := { c.registers with
          evalCatchFlag := c.registers.evalCatchFlag + 1 }
        stack := .handler h c.registers :: c.stack }
  /-- They return what they have evaluated. -/
  | leave {c : Control} {h : Handler} {saved : Registers}
      {rest : List Activation} (hstack : c.stack = .handler h saved :: rest) :
      Step c (some ⟨saved.vm, c.registers.vm, false⟩) { c with
        registers := h.left c.registers
        stack := h.resume rest c.registers }
  /-- `longjmp`; `p_throw` raises an error where nothing catches. -/
  | raise {c : Control} {x : Raised} {h : Handler} {saved r : Registers}
      {rest : List Activation} (hx : x = .throw → c.registers.evalCatchFlag ≠ 0)
      (hunwind : unwind x c.stack c.registers = some (h, saved, rest, r)) :
      Step c (some ⟨saved.vm, r.vm, aborts x c.stack⟩) { c with
        registers := r
        stack := h.resume rest r }

/-- The interpreter at its prompt, with its VM unused. -/
def start (r : Registers) : Control :=
  let r := { r with vm := ⟨[], []⟩ }
  { registers := r, stack := [.handler .topLevel r], number := 0 }

/-- A run from the start, with the exits in it. -/
inductive Run (r : Registers) : List Exit → Control → Prop where
  | start : Run r [] (Control.start r)
  | step {exits : List Exit} {c c' : Control} {e : Option Exit}
      (h : Run r exits c) (hstep : Step c e c') : Run r (exits ++ e.toList) c'

end Control

theorem Handler.recover_vm (h : Handler) (saved r : Registers) :
    (h.recover saved r).vm = r.vm := by cases h <;> rfl

/-- The machine is what the C stack says, as long as no compiled code has been
aborted: each activation has its part above that of its caller. -/
def Holds : List Activation → Vm → Prop
  | [], _ => True
  | .handler _ saved :: rest, vm => saved.vm = vm ∧ Holds rest vm
  | .arguments startSp argc :: rest, vm => ∃ below : Vm, ∃ args : List Val,
      vm = ⟨below.stack ++ args, below.frames⟩ ∧
        below.stack.length = startSp ∧ args.length = argc ∧ Holds rest below
  | .bytecode startSp base number :: rest, vm => ∃ below : Vm,
      below.Above vm startSp base number ∧
        below.stack.length = startSp ∧ below.frames.length = base ∧
        Holds rest below

theorem Vm.Above.trans {vm₁ vm₂ vm₃ : Vm} {startSp base number : Nat}
    (h : vm₁.Above vm₂ startSp base number)
    (h' : vm₂.Above vm₃ startSp base number) :
    vm₁.Above vm₃ startSp base number where
  stack := h'.stack.trans h.stack
  sp := h'.sp
  frames := h'.frames.trans h.frames
  count := h'.count
  own := h'.own

/-- How many entries and frames there are. -/
def Vm.size (vm : Vm) : Nat := vm.stack.length + vm.frames.length

section Above

variable {below vm : Vm} {startSp base number : Nat}

/-- The part of the machine below an activation is what it was. -/
theorem Vm.Above.take_eq (h : below.Above vm startSp base number)
    (hsp : below.stack.length = startSp) (hbase : below.frames.length = base) :
    (⟨vm.stack.take startSp, vm.frames.take base⟩ : Vm) = below := by
  rw [h.stack, h.frames, ← hsp, ← hbase, List.take_length, List.take_length]

theorem Vm.Above.size_lt (h : below.Above vm startSp base number)
    (hsp : below.stack.length = startSp) (hbase : below.frames.length = base) :
    below.size < vm.size := by
  have hstack := h.sp
  have hframes := h.count
  unfold Vm.size
  omega

/-- Between two states of an activation the part below it is the same. -/
theorem Vm.Above.between {vm' : Vm} (h : below.Above vm startSp base number)
    (h' : below.Above vm' startSp base number) :
    vm.Above vm' startSp base number where
  stack := h'.stack.trans h.stack.symm
  sp := h'.sp
  frames := h'.frames.trans h.frames.symm
  count := h'.count
  own := h'.own

end Above

/-- What a jump to a handler finds: the registers of its entry when it aborts no
compiled code, and otherwise what that has left behind. -/
theorem Holds.landing {x : Raised} {stack rest : List Activation} {vm : Vm}
    {r r' saved : Registers} {h : Handler} (hholds : Holds stack vm)
    (hunwind : unwind x stack r = some (h, saved, rest, r')) :
    r'.vm = r.vm ∧ saved.vm.size ≤ vm.size ∧
      (aborts x stack = true → saved.vm.size < vm.size) ∧
      (aborts x stack = false → saved.vm = vm ∧ Holds rest vm) := by
  induction stack generalizing vm r with
  | nil => cases hunwind
  | cons item stack ih =>
      cases item with
      | handler h₀ saved₀ =>
          obtain ⟨hvm, hrest⟩ := hholds
          simp only [unwind] at hunwind
          split at hunwind
          · rename_i hlands
            simp only [Option.some.injEq, Prod.mk.injEq] at hunwind
            obtain ⟨rfl, rfl, rfl, rfl⟩ := hunwind
            refine ⟨Handler.recover_vm _ _ _, hvm ▸ Nat.le_refl _, ?_,
              fun _ => ⟨hvm, hrest⟩⟩
            simp [aborts, hlands]
          · rename_i hlands
            obtain ⟨hr, hrest'⟩ := ih hrest hunwind
            rw [Handler.recover_vm] at hr
            refine ⟨hr, ?_⟩
            simpa [aborts, hlands] using hrest'
      | arguments startSp argc =>
          obtain ⟨below, args, rfl, -, hargs, hrest⟩ := hholds
          obtain ⟨hr, hle, hlt, heq⟩ := ih hrest hunwind
          have hsize : (⟨below.stack ++ args, below.frames⟩ : Vm).size =
              below.size + argc := by
            simp only [Vm.size, List.length_append]
            omega
          refine ⟨hr, by omega, fun hab => ?_, fun hab => ?_⟩
          · simp only [aborts, Bool.or_eq_true, decide_eq_true_eq] at hab
            rcases hab with hab | hab
            · omega
            · have := hlt hab
              omega
          · simp only [aborts, Bool.or_eq_false_iff, decide_eq_false_iff_not,
              ne_eq, Decidable.not_not] at hab
            obtain ⟨hzero, hab⟩ := hab
            have hnil : args = [] := List.eq_nil_of_length_eq_zero (by omega)
            subst hnil
            simpa using heq hab
      | bytecode startSp base number =>
          obtain ⟨below, habove, hsp, hbase, hrest⟩ := hholds
          obtain ⟨hr, hle, -, -⟩ := ih hrest hunwind
          have hsize := habove.size_lt hsp hbase
          exact ⟨hr, by omega, fun _ => by omega, fun hab => by cases hab⟩

/-- `vm_sp` and `vm_frame_count` are what they were. -/
def Exit.Restores (e : Exit) : Prop :=
  e.now.stack.length = e.entry.stack.length ∧
    e.now.frames.length = e.entry.frames.length

/-- An exit finds the machine as it was exactly when no compiled code is aborted
on the way to it. -/
structure Exit.Fair (e : Exit) : Prop where
  restores : e.Restores ↔ e.aborts = false
  same : e.aborts = false → e.now = e.entry

theorem Exit.fair {e : Exit}
    (hlt : e.aborts = true → e.entry.size < e.now.size)
    (heq : e.aborts = false → e.now = e.entry) : e.Fair where
  restores := by
    constructor
    · rintro ⟨hsp, hcount⟩
      by_contra hab
      have := hlt (by simpa using hab)
      unfold Vm.size at this
      omega
    · intro hab
      rw [Exit.Restores, heq hab]
      exact ⟨rfl, rfl⟩
  same := heq

theorem holds_resume {h : Handler} {rest : List Activation} {r : Registers}
    (hrest : Holds rest r.vm) : Holds (h.resume rest r) r.vm := by
  cases h with
  | topLevel => exact ⟨rfl, hrest⟩
  | _ => exact hrest

/-- What one step preserves. -/
theorem Control.Step.holds {c c' : Control} {e : Option Exit}
    (hstep : Step c e c') (h : Holds c.stack c.registers.vm) :
    (∀ exit ∈ e, exit.Fair) ∧
      ((∀ exit ∈ e, exit.aborts = false) → Holds c'.stack c'.registers.vm) := by
  cases hstep with
  | evaluate r hvm => exact ⟨by simp, fun _ => hvm ▸ h⟩
  | call =>
      exact ⟨by simp, fun _ => ⟨c.registers.vm, [], by simp, rfl, rfl, h⟩⟩
  | argument v hstack =>
      rw [hstack] at h
      obtain ⟨below, args, hvm, hsp, hargs, hrest⟩ := h
      refine ⟨by simp, fun _ => ⟨below, args ++ [v], ?_, hsp, ?_, hrest⟩⟩
      · simp [hvm]
      · simp [hargs]
  | enter slots hstack =>
      rw [hstack] at h
      obtain ⟨below, args, hvm, hsp, hargs, hrest⟩ := h
      refine ⟨by simp, fun _ => ⟨below, ?_, hsp, by simp [hvm], hrest⟩⟩
      subst hsp
      constructor <;> simp [hvm, Vm.Intact]
  | instruction vm hstack habove =>
      rw [hstack] at h
      obtain ⟨below, hbelow, hsp, hbase, hrest⟩ := h
      refine ⟨by simp, fun _ => ?_⟩
      simp only [hstack]
      exact ⟨below, hbelow.trans (habove hbelow.own), hsp, hbase, hrest⟩
  | @return_ startSp base number rest hstack hlast =>
      rw [hstack] at h
      obtain ⟨below, hbelow, hsp, hbase, hrest⟩ := h
      refine ⟨by simp, fun _ => ?_⟩
      exact hbelow.take_eq hsp hbase ▸ hrest
  | @divisionError startSp base number rest hstack =>
      rw [hstack] at h
      obtain ⟨below, hbelow, hsp, hbase, hrest⟩ := h
      have hlt := hbelow.size_lt hsp hbase
      refine ⟨?_, fun hab => by cases hab _ rfl⟩
      rintro exit ⟨⟩
      refine Exit.fair (fun _ => ?_) fun hab => by cases hab
      simpa only [hbelow.take_eq hsp hbase] using hlt
  | install h₀ hinner => exact ⟨by simp, fun _ => ⟨rfl, h⟩⟩
  | @leave h₀ saved rest hstack =>
      rw [hstack] at h
      obtain ⟨hvm, hrest⟩ := h
      refine ⟨?_, fun _ => ?_⟩
      · rintro exit ⟨⟩
        exact Exit.fair (fun hab => by cases hab) fun _ => hvm.symm
      have hleft : (h₀.left c.registers).vm = c.registers.vm := by
        cases h₀ <;> rfl
      simp only [hleft]
      exact holds_resume hrest
  | @raise x h₀ saved r rest hx hunwind =>
      obtain ⟨hr, -, hlt, heq⟩ := h.landing hunwind
      refine ⟨?_, fun hab => ?_⟩
      · rintro exit ⟨⟩
        refine Exit.fair (fun hab => ?_) fun hab => ?_
        · simpa only [hr] using hlt hab
        · exact hr.trans (heq hab).1.symm
      · have hrest := (heq (hab _ rfl)).2
        rw [← hr] at hrest
        exact holds_resume hrest

/-- The arrays of an activation that began above `below`. -/
def VmState.vm (g : VmState) (below : Vm) (number : Nat) : Vm where
  stack := g.vmStack
  frames := below.frames ++
    List.replicate (g.vmFrames.length - below.frames.length) number

namespace Control

variable {ctx : MachineContext} {c : Control} {rest : List Activation}
  {below : Vm} {frames : List VmFrame} {number : Nat} {g g' : VmState}

/-- `executeBytecode` runs on the arrays `vm`. -/
def runs (c : Control) (rest : List Activation) (below : Vm) (number : Nat)
    (vm : Vm) : Control :=
  { c with
    registers := { c.registers with vm := vm }
    stack := .bytecode below.stack.length below.frames.length number :: rest }

/-- It is in the state `g`. -/
abbrev running (c : Control) (rest : List Activation) (below : Vm)
    (number : Nat) (g : VmState) : Control :=
  c.runs rest below number (g.vm below number)

/-- It has returned. -/
def returned (c : Control) (rest : List Activation) (below : Vm) : Control :=
  { c with
    registers := { c.registers with vm := below }
    stack := rest }

theorem enter_running (bc : Bytecode) (self : Cell) (args : List Val)
    (σ : Interp) (hcount : below.frames.length = frames.length)
    (hstack : c.stack = .arguments below.stack.length args.length :: rest)
    (hvm : c.registers.vm = ⟨below.stack ++ args, below.frames⟩) :
    Step c none ({ c with number := c.number + 1 }.running rest below c.number
      (.start below.stack frames bc self args σ)) := by
  have hslots := Step.enter (List.replicate (bc.numParams - args.length)
    Val.nilCell ++ List.replicate (bc.numLocals -
      (args.length + (bc.numParams - args.length))) Val.nilCell) hstack
  simpa [runs, VmState.vm, VmState.start, Machine.frameOf, Machine.padTo,
    hvm, hcount] using hslots

/-- The part of an activation is above what it began with. -/
theorem above_of_run (number : Nat) (hcount : below.frames.length = frames.length)
    (h : VmRun ctx below.stack frames VmState.Quiet g) :
    below.Above (g.vm below number) below.stack.length below.frames.length
      number := by
  obtain ⟨m, slots, -, hembeds⟩ := h.embeds
  have hframes := hembeds.count
  constructor
  · simp [VmState.vm, hembeds.vmStack]
  · simp [VmState.vm, hembeds.vmStack]
  · simp [VmState.vm]
  · simp only [VmState.vm, List.length_append, List.length_replicate]
    omega
  · simp [VmState.vm, Vm.Intact]

/-- An instruction of an activation that nothing is left in is a step of the
interpreter. -/
theorem step_running {out : Outside}
    (hcount : below.frames.length = frames.length)
    (h : VmRun ctx below.stack frames VmState.Quiet g) (hout : g.Quiet out)
    (hstep : g.step ctx below.stack.length frames.length out =
      .value (.goOn g')) (hrange : g'.bytecode.InRange) :
    Step (c.running rest below number g) none
      (c.running rest below number g') := by
  have habove := above_of_run number hcount h
  have habove' := above_of_run number hcount
    (h.step out hout hstep hrange)
  exact .instruction (g'.vm below number) rfl fun _ => habove.between habove'

/-- Its return leaves the machine as its callers have it. -/
theorem return_running {out : Outside} {r : VmReturn}
    (hcount : below.frames.length = frames.length)
    (h : VmRun ctx below.stack frames VmState.Quiet g) (hout : g.Quiet out)
    (hstep : g.step ctx below.stack.length frames.length out =
      .value (.done r)) :
    Step (c.running rest below number g) none (c.returned rest below) := by
  obtain ⟨maps, hmaps⟩ := exists_maps
  obtain ⟨m, slots, hrun, hembeds⟩ := h.embeds
  obtain ⟨n, slots, k, rfl, hm⟩ := hrun.disciplined hmaps
  obtain ⟨-, -, hdone⟩ := hembeds.step hmaps hm hout hstep
  have hlast : m.frames = [] := frames_of_done hdone
  have hframes := hembeds.count
  rw [hlast, List.length_nil] at hframes
  have hreturn := Step.return_ (c := c.running rest below number g) rfl (by
    simp only [runs, VmState.vm, List.length_append, List.length_replicate]
    omega)
  have htake := (above_of_run number hcount h).take_eq rfl rfl
  simp only [runs, htake] at hreturn
  exact hreturn

/-- A division by zero under `traceFlag` takes its operands off and leaves the
rest to its callers. -/
theorem divides_running {out : Outside} {r : VmReturn}
    (hcount : below.frames.length = frames.length)
    (h : VmRun ctx below.stack frames VmState.Quiet g)
    (hzero : g.dividesByZero = true) (htraced : out.traced = true)
    (hstep : g.step ctx below.stack.length frames.length out =
      .value (.done r)) :
    ∃ vm : Vm, vm.stack = r.vmStack ∧ vm.frames.length = r.vmFrames.length ∧
      Step (c.running rest below number g) none
        (c.runs rest below number vm) ∧
      Step (c.runs rest below number vm) (some ⟨below, vm, true⟩)
        (c.returned rest vm) := by
  obtain ⟨maps, hmaps⟩ := exists_maps
  obtain ⟨m, slots, hrun, hembeds⟩ := h.embeds
  obtain ⟨n, slots, k, rfl, hm⟩ := hrun.disciplined hmaps
  obtain ⟨hframes, args, hargs⟩ :=
    hembeds.step_divides hmaps hm hzero htraced hstep
  have habove := above_of_run number hcount h
  let vm : Vm := ⟨r.vmStack, (g.vm below number).frames⟩
  have hvm : below.Above vm below.stack.length below.frames.length number :=
    { stack := by simp [vm, hargs]
      sp := by simp [vm, hargs]
      frames := habove.frames
      count := habove.count
      own := habove.own }
  refine ⟨vm, rfl, ?_, .instruction vm rfl fun _ => habove.between hvm, ?_⟩
  · have hlen := hembeds.count
    simp only [vm, VmState.vm, hframes, List.length_append,
      List.length_replicate]
    omega
  · have herror := Step.divisionError (c := c.runs rest below number vm) rfl
    simp only [runs, hvm.take_eq rfl rfl] at herror
    exact herror

/-- What an activation of `executeBytecode` on the arrays `below` does is made of
steps of the interpreter. -/
structure Executes (ctx : MachineContext) (c : Control)
    (rest : List Activation) (below : Vm) (frames : List VmFrame) : Prop where
  enters : ∀ bc self args σ,
    c.stack = .arguments below.stack.length args.length :: rest →
    c.registers.vm = ⟨below.stack ++ args, below.frames⟩ →
    Step c none ({ c with number := c.number + 1 }.running rest below c.number
      (.start below.stack frames bc self args σ))
  goesOn : ∀ number g out g', VmRun ctx below.stack frames VmState.Quiet g →
    g.Quiet out →
    g.step ctx below.stack.length frames.length out = .value (.goOn g') →
    g'.bytecode.InRange →
    Step (c.running rest below number g) none (c.running rest below number g')
  returns : ∀ number g out r, VmRun ctx below.stack frames VmState.Quiet g →
    g.Quiet out →
    g.step ctx below.stack.length frames.length out = .value (.done r) →
    Step (c.running rest below number g) none (c.returned rest below)
  divides : ∀ number g out r, VmRun ctx below.stack frames VmState.Quiet g →
    g.dividesByZero = true → out.traced = true →
    g.step ctx below.stack.length frames.length out = .value (.done r) →
    ∃ vm : Vm, vm.stack = r.vmStack ∧ vm.frames.length = r.vmFrames.length ∧
      Step (c.running rest below number g) none
        (c.runs rest below number vm) ∧
      Step (c.runs rest below number vm) (some ⟨below, vm, true⟩)
        (c.returned rest vm)

theorem executes (hcount : below.frames.length = frames.length) :
    Executes ctx c rest below frames where
  enters bc self args σ := enter_running bc self args σ hcount
  goesOn _ _ _ _ := step_running hcount
  returns _ _ _ _ := return_running hcount
  divides _ _ _ _ := divides_running hcount

end Control

theorem forall_exit {P : Exit → Prop} {exits : List Exit} {e : Option Exit} :
    (∀ x ∈ exits ++ e.toList, P x) ↔ (∀ x ∈ exits, P x) ∧ ∀ x ∈ e, P x := by
  simp [or_imp, forall_and]

/-- In a run every handler finds `vm_sp` and `vm_frame_count` as they were at its
entry if and only if no jump to one aborts compiled code and none divides by zero
under `traceFlag`; then it finds the whole machine as it was, and each activation
has its part above that of its caller.  The activations in a run are those of the
VM. -/
theorem handlers_keep_machine (r : Registers) {exits : List Exit} {c : Control}
    (hrun : Control.Run r exits c) :
    ((∀ e ∈ exits, e.Restores) ↔ ∀ e ∈ exits, e.aborts = false) ∧
      ((∀ e ∈ exits, e.aborts = false) →
        (∀ e ∈ exits, e.now = e.entry) ∧ Holds c.stack c.registers.vm) ∧
      ∀ ctx rest below frames, below.frames.length = frames.length →
        Control.Executes ctx c rest below frames := by
  rw [← and_assoc]
  refine ⟨?_, fun ctx rest below frames hcount => Control.executes hcount⟩
  induction hrun with
  | start => exact ⟨by simp, fun _ => ⟨by simp, rfl, trivial⟩⟩
  | @step exits c c' e _ hstep ih =>
      obtain ⟨hiff, hholds⟩ := ih
      rw [forall_exit, forall_exit, forall_exit, hiff]
      by_cases hclean : ∀ e ∈ exits, e.aborts = false
      · obtain ⟨hsame, hcontrol⟩ := hholds hclean
        obtain ⟨hfair, hnext⟩ := hstep.holds hcontrol
        refine ⟨and_congr_right fun _ => ?_, fun hall => ⟨⟨hsame, ?_⟩, ?_⟩⟩
        · exact forall₂_congr fun e he => (hfair e he).restores
        · exact fun e he => (hfair e he).same (hall.2 e he)
        · exact hnext hall.2
      · exact ⟨by simp [hclean], fun hall => absurd hall.1 hclean⟩

/-- The registers of an interpreter that has done nothing yet. -/
def Registers.idle : Registers :=
  { vm := ⟨[], []⟩
    envStackIdx := 0
    lambdaStackIdx := 0
    recursionCount := 0
    currentContext := ⟨"MAIN", "MAIN"⟩
    objSymbol := .nil
    objCell := .nil
    evalCatchFlag := 0 }

/-- `(catch (f) 'e)`, where the compiled `f` catches an error of tree-walked code
by an `eval-string` and returns. -/
theorem handlers_keep_machine_value : ∃ exits c,
    Control.Run .idle exits c ∧ exits.length = 2 ∧
      ∀ e ∈ exits, e.Restores := by
  have hrun := Control.Run.start.step
    (.install (.start .idle) (.catch_ true) (by simp))
  have hrun := (hrun.step (.call _)).step (.enter [] rfl)
  have hrun := hrun.step (.install _ .evalString (by simp))
  have hrun := hrun.step (.raise (x := .error true) (by simp) rfl)
  have hrun := (hrun.step (.return_ rfl rfl)).step (.leave rfl)
  refine ⟨_, _, hrun, rfl, (handlers_keep_machine .idle hrun).1.mpr ?_⟩
  simp [aborts, Handler.lands, Control.start]

/-- `(catch (f) 'e)`, where the compiled `f` raises an error: its frame stays on
the machine. -/
theorem catch_leaves_frame : ∃ exits c,
    Control.Run .idle exits c ∧ ¬ ∀ e ∈ exits, e.Restores := by
  have hrun := Control.Run.start.step
    (.install (.start .idle) (.catch_ true) (by simp))
  have hrun := (hrun.step (.call _)).step (.enter [] rfl)
  have hraised := hrun.step (Control.Step.raise (x := .error true)
    (by simp) rfl)
  exact ⟨_, _, hraised, fun h => by cases (h _ (by simp; rfl)).2⟩

end NewLispNeo
