/-
Protected symbols under compiled code: only `OP_STORE_GLOBAL` and primitives
that write through their operands change them, in a run and in every run inside
it.
-/
import NewLispNeo.Keeping
import NewLispNeo.StackLift

namespace NewLispNeo

open Outcome StepRun

namespace Machine

/-- The symbol the next instruction assigns to. -/
def storesTo (m : Machine) : Option Symbol :=
  match m.opcode, { m with ip := m.ip + 1 }.symbol with
  | some .storeGlobal, .value (s, _) => some s
  | _, _ => none

/-- The function and the operands of a call, its opcode read already. -/
def callOperands (m : Machine) : Outcome Error (Cell × List Val) := do
  let (argc, m) ← m.byte
  let (below, args) ← m.topOf argc.toNat
  let (target, m) ← { m with vmStack := below }.pop
  let targetFn ← target.deref m.interp
  .value (targetFn, args)

/-- The primitive that a call of `target` comes to, when it is one of the
others. -/
def calledPrimitive (σ : Interp) : Cell → Option String
  | .primitive (.other name) => some name
  | .context s =>
      match σ.contents ⟨s.name, s.name⟩ with
      | .primitive (.other name) => some name
      | _ => none
  | _ => none

/-- The symbols whose contents the next instruction writes through a primitive.
`writes` says which these are for a primitive and its operands. -/
def writtenBy (writes : String → List Val → Interp → List Symbol) (m : Machine) :
    List Symbol :=
  match m.opcode, { m with ip := m.ip + 1 }.callOperands with
  | some .call, .value (target, args) | some .tailCall, .value (target, args) =>
      (calledPrimitive m.interp target).elim [] (writes · args m.interp)
  | _, _ => []

/-- An instruction, unless it would write to a protected symbol. -/
def guardedStep (writes : String → List Val → Interp → List Symbol)
    (ctx : MachineContext) (m : Machine) : Outcome Error Next :=
  if (m.storesTo.toList ++ m.writtenBy writes).any (isProtected ctx.compile.flags)
  then .undefined else m.step ctx

end Machine

section Guarded

variable (writes : String → List Val → Interp → List Symbol)
  (ctx : CompileContext)

/-- `callLambda`, on the guarded machine. -/
def guardedCall (ev : Evaluator) (fuel : Nat) (selfSymbol : Option Symbol)
    (contents : List Cell) (σ : Interp) (args : List Cell) :
    Outcome Error (Val × Interp) := do
  let mctx : MachineContext :=
    ⟨ctx, ev, fuel, fun _ _ _ => .undefined, fun _ _ _ => .undefined⟩
  let bc ← Machine.bytecodeOf mctx selfSymbol contents
  match bc with
  | some bc => do
      let (values, σ₁) ← evaluateArgs ev σ args
      let (c, σ₂) ← StepRun.run (Machine.guardedStep writes mctx) fuel
        (Machine.start bc (.lambda selfSymbol contents)
          (values.map Val.temp) σ₁)
      .value (Val.temp c, σ₂)
  | none => evaluateLambda ev ctx.flags σ contents args

/-- `evaluateExpression`, with the guarded machine under it. -/
def guardedEvaluate : Nat → Evaluator
  | 0, _, _ => .timeout
  | fuel + 1, σ, cell =>
      match cell with
      | .expression (head :: args) => do
          let ev := guardedEvaluate fuel
          let (pCell, σ₁) ← evaluateHead ev σ head
          match pCell with
          | .primitive p =>
              callPrimitive ctx.runtime ctx.flags ev fuel p σ₁ args
          | .lambda selfSymbol contents =>
              guardedCall writes ctx ev fuel selfSymbol contents σ₁ args
          | .context _ | .fexpr _ | .dynSymbol _ _ => .undefined
          | .expression _ | .array _ | .string _ | .long _ | .bigint _
          | .float _ =>
              if args.isEmpty then .error .invalidFunction else .undefined
          | _ => .error .invalidFunction
      | cell => evaluateExpression ctx true 1 σ cell

end Guarded

namespace Machine

section Interp

variable {m m' : Machine}

theorem byte_cases {b : UInt8} (h : m.byte = .value (b, m')) :
    m.bytecode.code[m.ip]? = some b ∧ m' = { m with ip := m.ip + 1 } := by
  unfold byte at h
  cases hcode : m.bytecode.code[m.ip]? with
  | none => simp [hcode] at h
  | some c =>
      simp only [hcode, Outcome.value.injEq, Prod.mk.injEq] at h
      exact ⟨by rw [h.1], h.2.symm⟩

theorem byte_interp {b : UInt8} (h : m.byte = .value (b, m')) :
    m'.interp = m.interp := by rw [(byte_cases h).2]

theorem uint16_interp {n : Nat} (h : m.uint16 = .value (n, m')) :
    m'.interp = m.interp := by
  simp only [uint16, Outcome.bind_eq_value_iff, Prod.exists,
    Outcome.value.injEq, Prod.mk.injEq] at h
  obtain ⟨lo, m₁, hlo, hi, m₂, hhi, -, rfl⟩ := h
  exact (byte_interp hhi).trans (byte_interp hlo)

theorem int16_interp {n : Int} (h : m.int16 = .value (n, m')) :
    m'.interp = m.interp := by
  simp only [int16, Outcome.bind_eq_value_iff, Prod.exists,
    Outcome.value.injEq, Prod.mk.injEq] at h
  obtain ⟨n, m₁, hn, -, rfl⟩ := h
  exact uint16_interp hn

theorem symbol_interp {s : Symbol} (h : m.symbol = .value (s, m')) :
    m'.interp = m.interp := by
  simp only [symbol, Outcome.bind_eq_value_iff, Prod.exists] at h
  obtain ⟨n, m₁, hn, h⟩ := h
  split at h
  · cases h
  · simp only [Outcome.value.injEq, Prod.mk.injEq] at h
    exact h.2 ▸ uint16_interp hn

theorem pop_interp {v : Val} (h : m.pop = .value (v, m')) :
    m'.interp = m.interp := by
  unfold pop at h
  split at h
  · cases h
  · simp only [Outcome.value.injEq, Prod.mk.injEq] at h
    rw [← h.2]

theorem popCell_interp {c : Cell} (h : m.popCell = .value (c, m')) :
    m'.interp = m.interp := by
  simp only [popCell, Outcome.bind_eq_value_iff, Prod.exists,
    Outcome.value.injEq, Prod.mk.injEq] at h
  obtain ⟨v, m₁, hpop, -, -, -, rfl⟩ := h
  exact pop_interp hpop

theorem jump_interp {offset : Int} (h : m.jump offset = .value m') :
    m'.interp = m.interp := by
  unfold jump at h
  split at h
  · rw [← Outcome.value.inj h]
  · cases h

theorem loadLocal_interp {slot : Nat} (h : m.loadLocal slot = .value m') :
    m'.interp = m.interp := by
  unfold loadLocal at h
  split at h
  · cases h
  · exact Outcome.value.inj h ▸ rfl

theorem storeLocal_interp {slot : Nat} (h : m.storeLocal slot = .value m') :
    m'.interp = m.interp := by
  simp only [storeLocal, Outcome.bind_eq_value_iff, Prod.exists,
    Outcome.value.injEq] at h
  obtain ⟨v, m₁, hpop, rfl⟩ := h
  have hinterp := pop_interp hpop
  exact hinterp

theorem enter_interp {below args : List Val} {bc : Bytecode} {self : Cell}
    (h : m.enter below args bc self = .value m') : m'.interp = m.interp := by
  unfold enter at h
  split at h
  · cases h
  · exact Outcome.value.inj h ▸ rfl

/-- What a step leads to has the property. -/
def Next.Has (inv : Interp → Prop) : Next → Prop
  | .goOn m => inv m.interp
  | .done r => inv r.2

theorem return_has {inv : Interp → Prop} {v : Val} {next : Next}
    (hm : inv m.interp) (h : m.return_ v = .value next) :
    Next.Has inv next := by
  unfold return_ at h
  split at h
  · simp only [Outcome.bind_eq_value_iff, Outcome.value.injEq] at h
    obtain ⟨c, -, rfl⟩ := h
    exact hm
  · exact Outcome.value.inj h ▸ hm

end Interp

theorem guardedStep_eq {writes : String → List Val → Interp → List Symbol}
    {ctx : MachineContext} {m : Machine} {next : Next}
    (h : guardedStep writes ctx m = .value next) : m.step ctx = .value next ∧
      (∀ s, m.storesTo = some s → isProtected ctx.compile.flags s = false) ∧
      ∀ s ∈ m.writtenBy writes, isProtected ctx.compile.flags s = false := by
  unfold guardedStep at h
  split at h
  · cases h
  · rename_i hfree
    have hall : ∀ s ∈ m.storesTo.toList ++ m.writtenBy writes,
        isProtected ctx.compile.flags s = false := by
      intro s hs
      by_contra hprotected
      exact hfree (List.any_eq_true.mpr ⟨s, hs, by simpa using hprotected⟩)
    refine ⟨h, fun s hs => hall s ?_, fun s hs => hall s ?_⟩
    · rw [hs]
      exact List.mem_append_left _ List.mem_cons_self
    · exact List.mem_append_right _ hs

section Keeps

variable {ctx : MachineContext} {inv : Interp → Prop} {ev' : Evaluator}
  (hev : Keeps inv ev' ctx.ev) {m : Machine}

/-- Both machines come to a state with the property. -/
abbrev KeepsState (inv : Interp → Prop) (x y : Outcome Error Machine) : Prop :=
  Refines (fun m => inv m.interp) x y

include hev

theorem keeps_arith (op : ArithOp) (a b : Cell) {σ : Interp} (h : inv σ) :
    KeepsOn inv (arith { ctx with ev := ev' } op a b σ) (arith ctx op a b σ) := by
  unfold arith
  split
  · exact .after _ fun _ _ => .value h
  · exact hev.arithmetikOp _ op _ h

theorem keeps_binary (op : ArithOp) (h : inv m.interp) :
    KeepsState inv (m.binary { ctx with ev := ev' } op) (m.binary ctx op) := by
  refine .after _ fun v hv => .after _ fun c hc => .after _ fun b _ => ?_
  have hinterp := (popCell_interp hc).trans (pop_interp hv)
  exact (keeps_arith hev op c.1 b (hinterp.symm ▸ h)).bind fun _ hr => .value hr

theorem keeps_binaryImmediate (op : ArithOp) (n : Word) (h : inv m.interp) :
    KeepsState inv (m.binaryImmediate { ctx with ev := ev' } op n)
      (m.binaryImmediate ctx op n) := by
  refine .after _ fun c hc => ?_
  have hinterp := popCell_interp hc
  exact (keeps_arith hev op c.1 (.long n) (hinterp.symm ▸ h)).bind
    fun _ hr => .value hr

theorem keeps_negate (h : inv m.interp) :
    KeepsState inv (m.negate { ctx with ev := ev' }) (m.negate ctx) := by
  refine .after _ fun c hc => ?_
  have hinterp : inv c.2.interp := (popCell_interp hc).symm ▸ h
  obtain ⟨c, m₁⟩ := c
  cases c with
  | long x => exact .value hinterp
  | _ => exact (hev.arithmetikOp _ _ _ hinterp).bind fun _ hr => .value hr

omit hev in
theorem keeps_comparison (test : Int → Bool) (h : inv m.interp) :
    KeepsState inv (m.comparison { ctx with ev := ev' } test)
      (m.comparison ctx test) := by
  refine .after _ fun v hv => .after _ fun c hc => .after _ fun b _ =>
    .after _ fun n _ => ?_
  have hinterp := (popCell_interp hc).trans (pop_interp hv)
  exact .value (show inv c.2.interp from hinterp.symm ▸ h)

variable (hinv : Stable ctx.compile.flags inv)
  {writes : String → List Val → Interp → List Symbol}
  (hindex : ∀ target args σ, inv σ →
    ∀ r, ctx.implicitIndex target args σ = .value r → inv r.2)
  (hprimitive : ∀ name args σ, inv σ →
    (∀ s ∈ writes name args σ, isProtected ctx.compile.flags s = false) →
    ∀ r, ctx.primitive name args σ = .value r → inv r.2)

include hinv hindex hprimitive

theorem keeps_dispatch (target : Cell) (args : List Val) {σ : Interp}
    (hfree : ∀ name, target = .primitive (.other name) →
      ∀ s ∈ writes name args σ, isProtected ctx.compile.flags s = false)
    (h : inv σ) : KeepsOn inv (dispatch { ctx with ev := ev' } target args σ)
      (dispatch ctx target args σ) := by
  cases target with
  | primitive p =>
      cases p with
      | other name => exact .self (hprimitive name args σ h (hfree name rfl))
      | _ => exact .after _ fun argList _ => hev.callPrimitive hinv _ _ _ argList h
  | lambda selfSymbol contents =>
      exact .after _ fun argList _ => hev.lambda hinv contents argList h
  | expression | array | string | long | bigint | float =>
      exact .after _ fun argList _ => .self fun r hr => hindex _ _ _ h r hr
  | _ => exact .value h

theorem keeps_fallback (target : Cell) (args : List Val) {σ : Interp}
    (hfree : ∀ name, calledPrimitive σ target = some name →
      ∀ s ∈ writes name args σ, isProtected ctx.compile.flags s = false)
    (h : inv σ) : KeepsOn inv (fallback { ctx with ev := ev' } target args σ)
      (fallback ctx target args σ) := by
  cases target with
  | context s =>
      simp only [fallback]
      split
      · exact .after _ fun argList _ => .self fun r hr => hindex _ _ _ h r hr
      · refine keeps_dispatch hev hinv hindex hprimitive _ _ (fun name hname => ?_) h
        refine hfree name ?_
        simp only [calledPrimitive, hname]
  | _ =>
      simp only [fallback]
      refine keeps_dispatch hev hinv hindex hprimitive _ _ (fun name hname => ?_) h
      exact hfree name (by rw [hname]; rfl)

theorem keeps_callee
    (hfree : ∀ target args, m.callOperands = .value (target, args) →
      ∀ name, calledPrimitive m.interp target = some name →
        ∀ s ∈ writes name args m.interp, isProtected ctx.compile.flags s = false)
    (h : inv m.interp) :
    Refines (fun c => inv c.machine.interp)
      (m.callee { ctx with ev := ev' }) (m.callee ctx) := by
  refine .after _ fun b hb => .after _ fun r htop => .after _ fun v hv =>
    .after _ fun target htarget => ?_
  have hpop := pop_interp hv
  have hsame : v.2.interp = m.interp := hpop.trans (show b.2.interp = m.interp from byte_interp hb)
  have hinterp : inv v.2.interp := hsame.symm ▸ h
  have hoperands : m.callOperands = .value (target, r.2) := by
    simp only [callOperands, Outcome.bind_eq_value_iff]
    exact ⟨b, hb, r, htop, v, hv, target, htarget, rfl⟩
  have hfallback := keeps_fallback hev hinv hindex hprimitive target r.2
    (hsame.symm ▸ hfree target r.2 hoperands) hinterp
  have hresult : Refines (fun c : Callee => inv c.machine.interp)
      (fallback { ctx with ev := ev' } target r.2 v.2.interp >>= fun x =>
        .value (.result { v.2 with interp := x.2 } x.1))
      (fallback ctx target r.2 v.2.interp >>= fun x =>
        .value (.result { v.2 with interp := x.2 } x.1)) :=
    hfallback.bind fun _ hr => .value hr
  cases target with
  | lambda selfSymbol contents =>
      refine .after _ fun bc _ => ?_
      cases bc with
      | some bc => exact .value hinterp
      | none => exact hresult
  | _ => exact hresult

variable (hcall : ∀ target args, m.callOperands = .value (target, args) →
  ∀ name, calledPrimitive m.interp target = some name →
    ∀ s ∈ writes name args m.interp, isProtected ctx.compile.flags s = false)

include hcall in
theorem keeps_tailCall (h : inv m.interp) :
    Refines (Next.Has inv) (m.tailCall { ctx with ev := ev' })
      (m.tailCall ctx) := by
  rw [tailCall_eq, tailCall_eq]
  refine (keeps_callee hev hinv hindex hprimitive hcall h).bind fun c hc => ?_
  cases c with
  | compiled m₁ args bc self => exact .value hc
  | result m₁ v => exact .self fun next hnext => return_has hc hnext

include hcall in
theorem keeps_call (h : inv m.interp) :
    KeepsState inv (m.call { ctx with ev := ev' }) (m.call ctx) := by
  rw [call_eq, call_eq]
  refine (keeps_callee hev hinv hindex hprimitive hcall h).bind fun c hc => ?_
  cases c with
  | compiled m₁ args bc self =>
      exact .self fun m' hm' => (enter_interp hm').symm ▸ hc
  | result m₁ v => exact .value hc

/-- An instruction keeps the property, when it writes to no protected
symbol. -/
theorem keeps_execute {op : VmOpcode} (hstore : op = .storeGlobal →
      ∀ s m₁, m.symbol = .value (s, m₁) →
        isProtected ctx.compile.flags s = false)
    (hcall : op = .call → ∀ target args, m.callOperands = .value (target, args) →
      ∀ name, calledPrimitive m.interp target = some name →
        ∀ s ∈ writes name args m.interp, isProtected ctx.compile.flags s = false)
    (h : inv m.interp) :
    KeepsState inv (m.execute { ctx with ev := ev' } op)
      (m.execute ctx op) := by
  have hjump : ∀ {m₁ : Machine} {offset : Int}, inv m₁.interp →
      KeepsState inv (m₁.jump offset) (m₁.jump offset) := fun h =>
    .self fun m' hm' => (jump_interp hm').symm ▸ h
  have hload : ∀ {m₁ : Machine} {slot : Nat}, inv m₁.interp →
      KeepsState inv (m₁.loadLocal slot) (m₁.loadLocal slot) := fun h =>
    .self fun m' hm' => (loadLocal_interp hm').symm ▸ h
  have hstoreLocal : ∀ {m₁ : Machine} {slot : Nat}, inv m₁.interp →
      KeepsState inv (m₁.storeLocal slot) (m₁.storeLocal slot) := fun h =>
    .self fun m' hm' => (storeLocal_interp hm').symm ▸ h
  cases op with
  | nop | nil | true_ | loadSelf | const0 | const1 | const2 => exact .value h
  | const =>
      refine .after _ fun i hi => ?_
      have hinterp : inv i.2.interp := (uint16_interp hi).symm ▸ h
      dsimp only
      split
      · exact .undefined _
      · exact .value hinterp
  | pop =>
      exact .after _ fun v hv =>
        .value (show inv v.2.interp from (pop_interp hv).symm ▸ h)
  | dup =>
      simp only [execute]
      split
      · exact .undefined _
      · exact .value h
  | loadLocal =>
      exact .after _ fun i hi => hload ((uint16_interp hi).symm ▸ h)
  | storeLocal =>
      exact .after _ fun i hi => hstoreLocal ((uint16_interp hi).symm ▸ h)
  | loadGlobal =>
      exact .after _ fun s hs => .after _ fun v _ =>
        .value (show inv s.2.interp from (symbol_interp hs).symm ▸ h)
  | storeGlobal =>
      refine .after _ fun s hs => .after _ fun c hc => ?_
      have hfree := hstore rfl s.1 s.2 hs
      have hinterp := (popCell_interp hc).trans (symbol_interp hs)
      exact .value (hinv.assign (.inl hfree) c.1 (hinterp.symm ▸ h))
  | jump => exact .after _ fun o ho => hjump ((int16_interp ho).symm ▸ h)
  | jumpIfNil | jumpIfNotNil =>
      refine .after _ fun o ho => .after _ fun c hc => ?_
      have hinterp : inv c.2.interp :=
        ((popCell_interp hc).trans (int16_interp ho)).symm ▸ h
      dsimp only
      split
      · exact hjump hinterp
      · exact .value hinterp
  | lt | gt | le | ge | eq | ne => exact keeps_comparison _ h
  | add | sub | mul | div | mod => exact keeps_binary hev _ h
  | neg => exact keeps_negate hev h
  | call => exact keeps_call hev hinv hindex hprimitive (hcall rfl) h
  | callSelf =>
      refine .after _ fun b hb => .after _ fun r _ => ?_
      exact .self fun m' hm' =>
        ((enter_interp hm').trans (byte_interp hb)).symm ▸ h
  | loadLocal0 | loadLocal1 | loadLocal2 | loadLocal3 => exact hload h
  | storeLocal0 | storeLocal1 | storeLocal2 | storeLocal3 =>
      exact hstoreLocal h
  | sub1 | sub2 | add1 => exact keeps_binaryImmediate hev _ _ h
  | tailCallSelf =>
      refine .after _ fun b hb => .after _ fun r _ => ?_
      exact .value (show inv b.2.interp from (byte_interp hb).symm ▸ h)
  | ret | tailCall => exact .undefined _

/-- A guarded step is a step, and keeps the property. -/
theorem keeps_step (h : inv m.interp) :
    Refines (Next.Has inv) (guardedStep writes { ctx with ev := ev' } m)
      (m.step ctx) := by
  intro next hnext
  obtain ⟨hstep, hfree, hwritten⟩ := guardedStep_eq hnext
  have hkeeps : Refines (Next.Has inv) (m.step { ctx with ev := ev' })
      (m.step ctx) := by
    refine .after _ ?_
    rintro ⟨b, m₁⟩ hb
    obtain ⟨hcode, hm₁⟩ := byte_cases hb
    have hinterp : inv m₁.interp := (byte_interp hb).symm ▸ h
    dsimp only
    cases hop : VmOpcode.ofByte b with
    | none => exact .undefined _
    | some op =>
        have hopcode : m.opcode = some op := by
          rw [Machine.opcode, hcode, Option.bind_some, hop]
        have hstore : op = .storeGlobal → ∀ s m₂,
            m₁.symbol = .value (s, m₂) →
              isProtected ctx.compile.flags s = false := by
          rintro rfl s m₂ hs
          apply hfree
          rw [hm₁] at hs
          simp only [storesTo, hopcode, hs]
        have hcall : op = .call ∨ op = .tailCall → ∀ target args,
            m₁.callOperands = .value (target, args) → ∀ name,
              calledPrimitive m₁.interp target = some name →
                ∀ s ∈ writes name args m₁.interp,
                  isProtected ctx.compile.flags s = false := by
          intro hcalls target args hargs name hname s hs
          refine hwritten s ?_
          rw [hm₁] at hargs hname hs
          rcases hcalls with rfl | rfl <;>
            simpa only [writtenBy, hopcode, hargs, hname, Option.elim_some] using hs
        have hexecute := keeps_execute hev hinv hindex hprimitive hstore
          (fun h => hcall (.inl h)) hinterp
        cases op with
        | ret =>
            refine .after _ fun v hv => .self fun next hnext => ?_
            exact return_has (show inv v.2.interp from
              (pop_interp hv).symm ▸ hinterp) hnext
        | tailCall =>
            exact keeps_tailCall hev hinv hindex hprimitive (hcall (.inr rfl)) hinterp
        | _ => exact hexecute.bind fun m hm => .value hm
  exact hkeeps next hstep

end Keeps

end Machine

section Evaluate

variable {inv : Interp → Prop} {writes : String → List Val → Interp → List Symbol}

/-- What a whole run keeps. -/
theorem keeps_run {ctx : MachineContext} {ev' : Evaluator}
    (hev : Keeps inv ev' ctx.ev) (hinv : Stable ctx.compile.flags inv)
    (hindex : ∀ target args σ, inv σ →
      ∀ r, ctx.implicitIndex target args σ = .value r → inv r.2)
    (hprimitive : ∀ name args σ, inv σ →
      (∀ s ∈ writes name args σ, isProtected ctx.compile.flags s = false) →
      ∀ r, ctx.primitive name args σ = .value r → inv r.2)
    {m : Machine} (h : inv m.interp) (fuel : Nat) :
    KeepsOn inv
      (StepRun.run (Machine.guardedStep writes { ctx with ev := ev' }) fuel m)
      (StepRun.run (Machine.step ctx) fuel m) := by
  induction fuel generalizing m with
  | zero => exact .timeout _
  | succ fuel ih =>
      intro r hr
      have hstep := Machine.keeps_step hev hinv hindex hprimitive h
      simp only [StepRun.run] at hr ⊢
      cases hnext : Machine.guardedStep writes { ctx with ev := ev' } m with
      | value next =>
          obtain ⟨hsame, hhas⟩ := hstep next hnext
          rw [hnext] at hr
          rw [hsame]
          cases next with
          | goOn m' => exact ih hhas r hr
          | done r' =>
              obtain rfl := Outcome.value.inj hr
              exact ⟨rfl, hhas⟩
      | _ =>
          rw [hnext] at hr
          cases hr

theorem Keeps.head {ev' ev : Evaluator} (hev : Keeps inv ev' ev) (head : Cell)
    {σ : Interp} (h : inv σ) :
    KeepsOn inv (evaluateHead ev' σ head) (evaluateHead ev σ head) := by
  cases head with
  | symbol s => exact .after _ fun v _ => .value h
  | dynSymbol => exact .undefined _
  | _ => exact (hev σ _ h).bind fun _ hr => .value hr

variable {ctx : CompileContext} (hinv : Stable ctx.flags inv)

include hinv

theorem keeps_call {ev' ev : Evaluator} (hev : Keeps inv ev' ev) (fuel : Nat)
    (selfSymbol : Option Symbol) (contents args : List Cell) {σ : Interp}
    (h : inv σ) :
    KeepsOn inv (guardedCall writes ctx ev' fuel selfSymbol contents σ args)
      (callLambda ctx true ev fuel selfSymbol contents σ args) := by
  refine .after _ fun bc _ => ?_
  cases bc with
  | none => exact hev.lambda hinv contents args h
  | some bc =>
      simp only [executeBytecode, Outcome.bind_assoc]
      refine (hev.args args h).bind fun r hr => ?_
      have hrun := @keeps_run inv writes
        ⟨ctx, ev, fuel, fun _ _ _ => .undefined, fun _ _ _ => .undefined⟩ ev'
        hev hinv (by simp) (by simp) (Machine.start bc (.lambda selfSymbol contents)
          (r.1.map Val.temp) r.2) hr fuel
      exact hrun.bind fun _ hr => .value hr

theorem keeps_evaluate (fuel : Nat) :
    Keeps inv (guardedEvaluate writes ctx fuel) (evaluateExpression ctx true fuel) := by
  induction fuel with
  | zero => exact fun _ _ _ => .timeout _
  | succ fuel ih =>
      intro σ cell h
      cases cell with
      | expression l =>
          cases l with
          | nil => exact .error _ _
          | cons head args =>
              refine (ih.head head h).bind fun r hr => ?_
              obtain ⟨pCell, σ₁⟩ := r
              cases pCell with
              | primitive p => exact ih.callPrimitive hinv _ fuel p args hr
              | lambda selfSymbol contents =>
                  exact keeps_call hinv ih fuel selfSymbol contents args hr
              | context | fexpr | dynSymbol => exact .undefined _
              | expression | array | string | long | bigint | float =>
                  cases args with
                  | nil => exact .error _ _
                  | cons => exact .undefined _
              | _ => exact .error _ _
      | symbol | context => exact .after _ fun v _ => .value h
      | dynSymbol => exact .undefined _
      | _ => exact .value h

end Evaluate

/-- The cell of one protected symbol. -/
theorem stable_bind {flags : SymbolFlags} {s : Symbol} (b : Binding)
    (hs : isProtected flags s = true) (hown : s ∉ ownSymbols) :
    Stable flags fun σ => σ.bind s = b where
  setBind := by
    intro σ t b' ht h
    have hne : s ≠ t := by
      rintro rfl
      rcases ht with ht | ht
      · simp [hs] at ht
      · exact hown ht
    rw [Interp.setBind_bind_ne _ _ hne, h]
  supply := fun _ _ h => h

section Runs

variable (ctx : CompileContext) (depth fuel : Nat)
  (implicitIndex : Cell → List Cell → Interp → Outcome Error (Val × Interp))
  (primitive : String → List Val → Interp → Outcome Error (Val × Interp))

/-- The machine over the interpreter, with bytecode, of a given depth. -/
def machineOver : MachineContext :=
  ⟨ctx, evaluateExpression ctx true depth, fuel, implicitIndex, primitive⟩

/-- The same machine, where no run writes to a protected symbol. -/
def guardedOver (writes : String → List Val → Interp → List Symbol) : MachineContext :=
  ⟨ctx, guardedEvaluate writes ctx depth, fuel, implicitIndex, primitive⟩

end Runs

/-- Compiled code changes no protected symbol, as long as no `OP_STORE_GLOBAL`
assigns to one and no primitive called writes to one. -/
theorem protected_unchanged {ctx : CompileContext} {depth fuel : Nat}
    {implicitIndex : Cell → List Cell → Interp → Outcome Error (Val × Interp)}
    {primitive : String → List Val → Interp → Outcome Error (Val × Interp)}
    {writes : String → List Val → Interp → List Symbol}
    {s : Symbol} (hs : isProtected ctx.flags s = true) (hown : s ∉ ownSymbols)
    (hindex : ∀ target args σ r, implicitIndex target args σ = .value r →
      r.2.bind s = σ.bind s)
    (hprimitive : ∀ name args σ r, primitive name args σ = .value r →
      s ∉ writes name args σ → r.2.bind s = σ.bind s)
    {bc : Bytecode} {self : Cell} {args : List Val} {σ : Interp} {m : Machine}
    (hrun : GoesOn (Machine.guardedStep writes
      (guardedOver ctx depth fuel implicitIndex primitive writes))
      (Machine.start bc self args σ) m) :
    GoesOn (Machine.step (machineOver ctx depth fuel implicitIndex primitive))
        (Machine.start bc self args σ) m ∧
      m.interp.contents s = σ.contents s ∧
      ∀ r, Machine.guardedStep writes
          (guardedOver ctx depth fuel implicitIndex primitive writes) m =
          .value (.done r) →
        m.step (machineOver ctx depth fuel implicitIndex primitive) =
          .value (.done r) ∧ r.2.contents s = σ.contents s := by
  have hinv := stable_bind (σ.bind s) hs hown
  have hev : Keeps (fun σ' : Interp => σ'.bind s = σ.bind s)
      (guardedEvaluate writes ctx depth) (evaluateExpression ctx true depth) :=
    keeps_evaluate hinv depth
  have hkept : ∀ name args σ', σ'.bind s = σ.bind s →
      (∀ t ∈ writes name args σ', isProtected ctx.flags t = false) →
      ∀ r, primitive name args σ' = .value r → r.2.bind s = σ.bind s := by
    intro name args σ' hσ hfree r hr
    refine (hprimitive name args σ' r hr fun hmem => ?_).trans hσ
    rw [hfree s hmem] at hs
    cases hs
  have hstep : ∀ m : Machine, m.interp.bind s = σ.bind s → ∀ next,
      Machine.guardedStep writes
        (guardedOver ctx depth fuel implicitIndex primitive writes) m =
        .value next →
      m.step (machineOver ctx depth fuel implicitIndex primitive) = .value next ∧
        Machine.Next.Has (fun σ' => σ'.bind s = σ.bind s) next := by
    intro m hm
    exact @Machine.keeps_step (machineOver ctx depth fuel implicitIndex primitive) _
      (guardedEvaluate writes ctx depth) hev m hinv writes
      (fun target args σ' hσ r hr => (hindex _ _ _ r hr).trans hσ) hkept hm
  have hreached : GoesOn (Machine.step
        (machineOver ctx depth fuel implicitIndex primitive))
        (Machine.start bc self args σ) m ∧ m.interp.bind s = σ.bind s := by
    induction hrun with
    | refl => exact ⟨.refl, rfl⟩
    | tail _ hnext ih =>
        obtain ⟨hgoes, hm⟩ := ih
        obtain ⟨hsame, hhas⟩ := hstep _ hm _ hnext
        exact ⟨hgoes.tail hsame, hhas⟩
  obtain ⟨hgoes, hm⟩ := hreached
  refine ⟨hgoes, congrArg Binding.val hm, fun r hr => ?_⟩
  obtain ⟨hsame, hhas⟩ := hstep m hm _ hr
  exact ⟨hsame, congrArg Binding.val hhas⟩

/-! ### Primitives that edit their operands -/

/-- Write to the cell of an operand. -/
def Interp.write (σ : Interp) (v : Val) (c : Cell) : Interp :=
  match v.src with
  | .symbol s _ => σ.overwrite s c
  | _ => σ

/-- `p_swap` on quoted cells: `getRefCheckProtected` finds no symbol to check. -/
def p_swap (args : List Val) (σ : Interp) : Outcome Error (Val × Interp) :=
  match args with
  | [first, second] => do
      let c ← first.deref σ
      let d ← second.deref σ
      .value (⟨c, second.src⟩, (σ.write first d).write second c)
  | _ => .undefined

/-- The symbols whose own cells the operands are. -/
def ownedCells (args : List Val) : List Symbol :=
  args.filterMap fun v =>
    match v.src with
    | .symbol s _ => some s
    | _ => none

/-- What the primitives called below do, and write to. -/
def editing (name : String) (args : List Val) (σ : Interp) :
    Outcome Error (Val × Interp) :=
  if name = "swap" then p_swap args σ else .undefined

def editedBy (_ : String) (args : List Val) (_ : Interp) : List Symbol :=
  ownedCells args

theorem write_bind {σ : Interp} {v : Val} {c : Cell} {s : Symbol}
    (hv : ∀ t id, v.src = .symbol t id → s ≠ t) (hit : s ≠ itSymbol) :
    (σ.write v c).bind s = σ.bind s := by
  unfold Interp.write
  split
  · rename_i t id hsrc
    have hst := hv t id hsrc
    unfold Interp.overwrite
    split
    · rw [Interp.setBind_bind_ne _ _ hit, Interp.setBind_bind_ne _ _ hst]
    · exact Interp.setBind_bind_ne _ _ hst
  · rfl

theorem editing_writes {name : String} {args : List Val} {σ : Interp}
    {r : Val × Interp} {s : Symbol} (h : editing name args σ = .value r)
    (hs : s ∉ editedBy name args σ) (hit : s ≠ itSymbol) : r.2.bind s = σ.bind s := by
  unfold editing at h
  split at h
  · unfold p_swap at h
    split at h
    · rename_i first second
      simp only [Outcome.bind_eq_value_iff] at h
      obtain ⟨c, -, d, -, h⟩ := h
      obtain rfl := Outcome.value.inj h
      have hapart : ∀ v ∈ [first, second], ∀ t id, v.src = .symbol t id → s ≠ t := by
        rintro v hv t id hsrc rfl
        exact hs (List.mem_filterMap.mpr ⟨v, hv, by rw [hsrc]⟩)
      exact (write_bind (hapart second (by simp)) hit).trans
        (write_bind (hapart first (by simp)) hit)
    · cases h
  · cases h

/-- `(lambda () (setq name 5))`. -/
def assignFn (name : String) : List Cell :=
  [.expression [], .expression [.symbol (mainSymbol "setq"),
    .symbol (mainSymbol name), .long 5]]

def assignBytecode (name : String) : Bytecode where
  code := [VmOpcode.const.toByte, 0, 0, VmOpcode.dup.toByte,
    VmOpcode.storeGlobal.toByte, 0, 0, VmOpcode.ret.toByte]
  constants := [.long 5]
  symbols := [mainSymbol name]
  numParams := 0
  numLocals := 0

/-- `(lambda () (swap a b))`. -/
def swapFn (a b : String) : List Cell :=
  [.expression [], .expression [.symbol (mainSymbol "swap"),
    .symbol (mainSymbol a), .symbol (mainSymbol b)]]

def swapBytecode (a b : String) : Bytecode where
  code := [VmOpcode.loadGlobal.toByte, 0, 0, VmOpcode.loadGlobal.toByte, 1, 0,
    VmOpcode.loadGlobal.toByte, 2, 0, VmOpcode.tailCall.toByte, 2, VmOpcode.ret.toByte]
  constants := []
  symbols := [mainSymbol "swap", mainSymbol a, mainSymbol b]
  numParams := 0
  numLocals := 0

/-- After `(set 'L 1 'M 2)`. -/
def twoSymbols : Interp :=
  (startup.bindNew (mainSymbol "L") (.long 1)).bindNew (mainSymbol "M") (.long 2)

/-- Before the call of `swap`. -/
def atSwap : Machine where
  vmStack := [Val.ofSymbol twoSymbols (mainSymbol "swap"),
    Val.ofSymbol twoSymbols (mainSymbol "L"), Val.ofSymbol twoSymbols (mainSymbol "M")]
  bytecode := swapBytecode "L" "M"
  ip := 9
  fp := 0
  currentSelf := .nil
  frames := []
  interp := twoSymbols

/-- `(swap L M)` in compiled code exchanges two numbers and keeps `+`. -/
theorem swap_keeps_protected : ∃ r : Cell × Interp,
    atSwap.step (machineOver startupContext 1 1 (fun _ _ _ => .undefined) editing) =
      .value (.done r) ∧
    r.2.contents (mainSymbol "L") = .long 2 ∧
    r.2.contents (mainSymbol "+") = .primitive .add := by
  have hrun : GoesOn (Machine.guardedStep editedBy
      (guardedOver startupContext 1 1 (fun _ _ _ => .undefined) editing editedBy))
      (Machine.start (swapBytecode "L" "M") .nil [] twoSymbols) atSwap :=
    .head (b := { atSwap with ip := 3, vmStack := atSwap.vmStack.take 1 }) rfl
      (.head (b := { atSwap with ip := 6, vmStack := atSwap.vmStack.take 2 }) rfl
        (.single rfl))
  have hkept := protected_unchanged (s := mainSymbol "+") (by decide)
    (by decide) (by simp) (fun _ _ _ _ h hs => editing_writes h hs (by decide)) hrun
  obtain ⟨hstep, hcontents⟩ := hkept.2.2 (.long 1,
    (twoSymbols.overwrite (mainSymbol "L") (.long 2)).overwrite (mainSymbol "M") (.long 1)) rfl
  exact ⟨_, hstep, rfl, hcontents⟩

/-- The compiler's context after `(constant 'L)`. -/
def constantContext : CompileContext :=
  { startupContext with
    flags := fun s => if s = mainSymbol "L" then symbolProtected else startupFlags s }

/-- Compiled code assigns to a built-in function where the tree-walker raises
an error, and exchanges a constant with another symbol. -/
theorem assign_clobbers :
    (isProtected startupFlags (mainSymbol "+") = true ∧
      compileLambda startupContext (assignFn "+") =
        .value (assignBytecode "+") ∧
      (∃ σ, StepRun.EndsIn (Machine.step (startupMachine 2))
          (Machine.start (assignBytecode "+") (.lambda none (assignFn "+")) []
            startup) (.value (.long 5, σ)) ∧
        σ.contents (mainSymbol "+") = .long 5) ∧
      startup.contents (mainSymbol "+") = .primitive .add ∧
      evaluateLambda (startupMachine 2).ev startupFlags startup (assignFn "+")
        [] = .error .symbolProtected) ∧
    isProtected constantContext.flags (mainSymbol "L") = true ∧
      compileLambda constantContext (swapFn "L" "M") = .value (swapBytecode "L" "M") ∧
      twoSymbols.contents (mainSymbol "L") = .long 1 ∧
      ∃ σ, StepRun.EndsIn (Machine.step
          (machineOver constantContext 2 2 (fun _ _ _ => .undefined) editing))
          (Machine.start (swapBytecode "L" "M") (.lambda none (swapFn "L" "M")) []
            twoSymbols) (.value (.long 1, σ)) ∧
        σ.contents (mainSymbol "L") = .long 2 :=
  ⟨⟨by decide, rfl, ⟨startup.assign (mainSymbol "+") (.long 5),
      ⟨4, fun n => rfl⟩, by simp⟩, rfl, rfl⟩,
    by decide, rfl, rfl, ⟨_, ⟨4, fun n => rfl⟩, rfl⟩⟩

end NewLispNeo
