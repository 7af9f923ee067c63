/-
Tail calls: a call in tail position that takes over the frame of its caller
comes to the same as a call followed by a return.
-/
import Mathlib.Data.Finset.Lattice.Fold
import NewLispNeo.VmFrames
import NewLispNeo.Yields

namespace NewLispNeo

open StepRun Machine

section Lift

variable {ctx : MachineContext} {m m₁ : Machine} {v : Val}
  {base base' : List Val} {callers callers' : List Frame}

/-- A value is returned from the frame the instruction started in. -/
theorem way_ret (h : m.way ctx = .value (.ret m₁ v)) :
    m₁.frames = m.frames ∧ m₁.fp = m.fp := by
  simp only [way, Outcome.bind_eq_value_iff, Prod.exists] at h
  obtain ⟨b, m₂, hb, h⟩ := h
  have hmoves := (Moves.byte hb).2
  split at h
  · cases h
  · simp only [Outcome.bind_eq_value_iff, Prod.exists, Outcome.value.injEq,
      Way.ret.injEq] at h
    obtain ⟨w, m₃, hpop, rfl, rfl⟩ := h
    have hpop := Moves.pop hpop
    exact ⟨hpop.frames.trans hmoves.frames, hpop.fp.trans hmoves.fp⟩
  · obtain ⟨c, hc, hway⟩ := Outcome.bind_eq_value_iff.mp h
    cases c with
    | compiled => cases hway
    | result m₃ w =>
        obtain ⟨rfl, rfl⟩ := Way.ret.inj (Outcome.value.inj hway)
        have hstays := callee_stays hc
        exact ⟨hstays.frames.trans hmoves.frames, hstays.fp.trans hmoves.fp⟩
  · simp only [Outcome.bind_eq_value_iff, Outcome.value.injEq] at h
    obtain ⟨m₃, -, hway⟩ := h
    cases hway

/-- The run above one stack comes to what the run above another one comes to,
when a return to the callers there comes to what it comes to here. -/
theorem lift_run
    (hreturn : ∀ (m : Machine) v, m.fp = 0 → m.frames = [] → ∀ o,
      Continues (step ctx) ((m.lift base callers).return_ v) o →
        Continues (step ctx) ((m.lift base' callers').return_ v) o)
    {slots : List Nat} (hrun : Execution ctx m slots)
    (hrange : ∀ t, GoesOn (step ctx) m t → t.bytecode.InRange)
    {fuel : Nat} {o : Outcome Error (Cell × Interp)}
    (h : StepRun.run (step ctx) fuel (m.lift base callers) = o)
    (ho : o ≠ .timeout) :
    EndsIn (step ctx) (m.lift base' callers') o := by
  obtain ⟨maps, hmaps⟩ := exists_maps
  induction fuel generalizing m slots with
  | zero => exact absurd h.symm ho
  | succ fuel ih =>
      obtain ⟨n, rest, k, rfl, hdisciplined⟩ := hrun.disciplined hmaps
      have hway : ∀ {base callers}, (m.lift base callers).step ctx =
          m.way ctx >>= fun w => (w.lift base callers).close := by
        intro base callers
        rw [step_eq_way, lift_way fun b op m₁ hb hop =>
          hdisciplined.fed hmaps hb hop, Outcome.bind_assoc]
        rfl
      -- a step of the run itself
      have hnext : ∀ t, m.step ctx = .value (.goOn t) →
          StepRun.run (step ctx) fuel (t.lift base callers) = o →
          EndsIn (step ctx) (t.lift base' callers') o := by
        intro t hstep ht
        have hgoes : GoesOn (step ctx) m t := .single hstep
        exact ih (hrun.step hstep (hrange t hgoes))
          (fun u hu => hrange u (hgoes.trans hu)) ht
      rw [endsIn_iff_continues, hway]
      have hstep : m.step ctx = m.way ctx >>= Way.close := step_eq_way
      simp only [StepRun.run, hway] at h
      cases hw : m.way ctx with
      | error e => simpa [hw, Continues, eq_comm] using h
      | undefined => simpa [hw, Continues, eq_comm] using h
      | timeout => simpa [hw, Continues, eq_comm] using h
      | value w =>
          simp only [hw, Outcome.value_bind] at h hstep ⊢
          cases w with
          | goOn t => exact hnext t hstep h
          | ret m₁ v =>
              obtain ⟨hframes, hfp⟩ := way_ret hw
              by_cases hbase : m₁.frames = []
              · have hzero : m₁.fp = 0 :=
                  hfp.trans (hdisciplined.fp_base (hframes.symm.trans hbase))
                exact hreturn m₁ v hzero hbase o (continues_of_run h ho)
              · obtain ⟨t, ht, hlift⟩ := lift_return v hbase
                simp only [Way.lift, Way.close, hlift] at h ⊢
                exact hnext t (hstep.trans ht) h

/-- What a return leads to depends on the callers, what is below the frame and
the interpreter. -/
theorem return_congr (v : Val) (hframes : m.frames = m₁.frames)
    (hbelow : m.vmStack.take m.fp = m₁.vmStack.take m₁.fp)
    (hinterp : m.interp = m₁.interp) : m.return_ v = m₁.return_ v := by
  unfold return_
  rw [← hframes, ← hbelow, ← hinterp]

theorem step_ret {vs : List Val}
    (hcode : m.bytecode.code[m.ip]? = some VmOpcode.ret.toByte)
    (hstack : m.vmStack = vs ++ [v]) :
    m.step ctx = (m.goTo (m.ip + 1) vs).return_ v := by
  have hbyte : m.byte = .value (VmOpcode.ret.toByte,
      m.goTo (m.ip + 1) (vs ++ [v])) := by
    rw [← hstack]
    simp [byte, hcode, goTo]
  simp only [Machine.step, hbyte, Outcome.value_bind, VmOpcode.ofByte_toByte,
    pop_goTo]

end Lift

section Transparent

variable {ctx : MachineContext} {m : Machine}

/-- The state `m'` after a call in `m`, when its result goes to position `ip` of
`bc`. -/
def Machine.returningTo (bc : Bytecode) (ip : Nat) (m m' : Machine) : Machine :=
  if m.frames.length < m'.frames.length then
    { m' with frames := ⟨bc, ip, m.fp, m.currentSelf⟩ :: m.frames }
  else { m' with bytecode := bc, ip := ip }

/-- A call whose result goes to position `ip` of `bc`. -/
def Machine.callThen (bc : Bytecode) (ip : Nat) (m : Machine)
    (call : Machine → Outcome Error Machine) : Outcome Error Next := do
  let m' ← call m
  .value (.goOn (m.returningTo bc ip m'))

/-- A compiled function can be called: it has no more parameters than an
argument count reaches, and in its run it and what it calls are in range. -/
def Callee.Callable (ctx : MachineContext) : Callee → Prop
  | .compiled m args bc self => bc.numParams < 256 ∧
      ∀ t, GoesOn (step ctx) (Machine.start bc self args m.interp) t →
        t.bytecode.InRange
  | .result _ _ => True

/-- Entering a function in place comes to what entering it on a frame of its
own and returning from there comes to. -/
theorem reenter_iff_enter {args : List Val} {bc bc' : Bytecode} {self : Cell}
    {ip : Nat} (hcode : bc'.code[ip]? = some VmOpcode.ret.toByte)
    (hfp : m.fp ≤ m.vmStack.length)
    (hcallable : (Callee.compiled m args bc self).Callable ctx)
    (o : Outcome Error (Cell × Interp)) :
    EndsIn (step ctx) (m.reenter args bc self) o ↔
      EndsIn (step ctx) ((Machine.start bc self args m.interp).lift m.vmStack
        (⟨bc', ip, m.fp, m.currentSelf⟩ :: m.frames)) o := by
  obtain ⟨-, hrange⟩ := hcallable
  have hlift : m.reenter args bc self =
      (Machine.start bc self args m.interp).lift (m.vmStack.take m.fp)
        m.frames := by
    simp [reenter, Machine.lift, Machine.start, hfp]
  have hrun : Execution ctx (Machine.start bc self args m.interp) _ :=
    .start bc self args m.interp (hrange _ .refl)
  -- both returns find the caller of `m`
  have hreturn : ∀ (t : Machine) v, t.fp = 0 → t.frames = [] → ∀ o,
      Continues (step ctx)
          ((t.lift (m.vmStack.take m.fp) m.frames).return_ v) o ↔
        Continues (step ctx) ((t.lift m.vmStack
          (⟨bc', ip, m.fp, m.currentSelf⟩ :: m.frames)).return_ v) o := by
    intro t v hzero hbase o
    obtain ⟨r, hr, hstack, hbc, hip, hfp', hframes, hinterp⟩ :
        ∃ r, (t.lift m.vmStack (⟨bc', ip, m.fp, m.currentSelf⟩ ::
            m.frames)).return_ v = .value (.goOn r) ∧
          r.vmStack = m.vmStack ++ [v] ∧ r.bytecode = bc' ∧ r.ip = ip ∧
          r.fp = m.fp ∧ r.frames = m.frames ∧ r.interp = t.interp := by
      simp [return_, Machine.lift, hzero, hbase]
    have hret : r.step ctx = (r.goTo (r.ip + 1) m.vmStack).return_ v :=
      step_ret (by rw [hbc, hip, hcode]) hstack
    have hsame : (t.lift (m.vmStack.take m.fp) m.frames).return_ v =
        (r.goTo (r.ip + 1) m.vmStack).return_ v := by
      apply return_congr
      · simp [Machine.lift, hbase, hframes]
      · simp [Machine.lift, hzero, hfp', hfp]
      · exact hinterp.symm
    rw [hr, hsame, ← hret, ← endsIn_iff_continues]
    rfl
  rw [hlift]
  exact endsIn_congr
    (fun fuel o h ho => lift_run (fun t v hzero hbase o =>
      (hreturn t v hzero hbase o).mp) hrun hrange h ho)
    (fun fuel o h ho => lift_run (fun t v hzero hbase o =>
      (hreturn t v hzero hbase o).mpr) hrun hrange h ho) o

/-- A return in place comes to pushing the value and returning it. -/
theorem return_iff_push {v : Val} {bc : Bytecode} {ip : Nat}
    (hcode : bc.code[ip]? = some VmOpcode.ret.toByte)
    (o : Outcome Error (Cell × Interp)) :
    Continues (step ctx) (m.return_ v) o ↔
      EndsIn (step ctx) { m.push v with bytecode := bc, ip := ip } o := by
  rw [endsIn_iff_continues, step_ret hcode rfl]
  have hsame : m.return_ v = ({ m.push v with bytecode := bc, ip := ip }.goTo
      (ip + 1) m.vmStack).return_ v := return_congr v rfl rfl rfl
  rw [hsame]

/-- What is called in tail position comes to what is called and returned. -/
theorem tailCall_iff {c : Callee} {bc : Bytecode} {ip : Nat} {d : Int}
    (hcode : bc.code[ip]? = some VmOpcode.ret.toByte)
    (hstays : Stays m c.machine d)
    (hfp : c.machine.fp ≤ c.machine.vmStack.length)
    (hcallable : c.Callable ctx) (o : Outcome Error (Cell × Interp)) :
    Continues (step ctx) c.tailCall o ↔
      Continues (step ctx) (m.callThen bc ip fun _ => c.call) o := by
  cases c with
  | compiled m₁ args bc₁ self =>
      simp only [Callee.machine] at hstays hfp
      refine (reenter_iff_enter hcode hfp hcallable o).trans ?_
      have henter : m₁.enter m₁.vmStack args bc₁ self = .value _ :=
        if_neg (Nat.not_le.mpr hcallable.1)
      simp only [callThen, Callee.call, henter, Outcome.value_bind]
      simp only [returningTo, List.length_cons, ← hstays.fp,
        ← hstays.currentSelf, ← hstays.frames, Nat.lt_add_one, if_true]
      rfl
  | result m₁ v =>
      simp only [Callee.machine] at hstays
      refine (return_iff_push hcode o).trans ?_
      have hsame : m.returningTo bc ip (m₁.push v) =
          { m₁.push v with bytecode := bc, ip := ip } :=
        if_neg (by simp [push, hstays.frames])
      simp only [callThen, Callee.call, Outcome.value_bind, hsame]
      rfl

/-- The function of a self call, which is the running one. -/
def Machine.selfCallee (m : Machine) : Outcome Error Callee := do
  let (argc, m) ← m.byte
  let (below, args) ← m.topOf argc.toNat
  .value (.compiled { m with vmStack := below } args m.bytecode m.currentSelf)

theorem selfCallee_stays {c : Callee} (h : m.selfCallee = .value c) :
    Stays m c.machine (-m.argc) := by
  simp only [selfCallee, Outcome.bind_eq_value_iff, Prod.exists,
    Outcome.value.injEq] at h
  obtain ⟨b, m₁, hb, below, args, htop, rfl⟩ := h
  have hmoves := (Moves.byte hb).2
  have hlen := (topOf_eq htop).1
  have hlen₁ := hmoves.height
  rw [argc_eq (Moves.byte hb).1]
  exact ⟨hmoves.bytecode, hmoves.currentSelf, hmoves.fp, hmoves.frames,
    by simp only [Callee.machine]; omega⟩

theorem callSelf_eq : m.callSelf = m.selfCallee >>= Callee.call := by
  simp only [callSelf, selfCallee, Outcome.bind_assoc, Outcome.value_bind]
  rfl

theorem tailCallSelf_eq (h : m.fp + m.argc ≤ m.vmStack.length) :
    (m.tailCallSelf >>= fun m' => .value (.goOn m')) =
      m.selfCallee >>= Callee.tailCall := by
  simp only [tailCallSelf, selfCallee, Outcome.bind_assoc, Outcome.value_bind]
  refine Outcome.bind_congr ?_
  rintro ⟨b, m₁⟩ hb
  refine Outcome.bind_congr ?_
  rintro ⟨below, args⟩ htop
  have hfp := (Moves.byte hb).2.fp
  have hlen := (Moves.byte hb).2.height
  rw [argc_eq (Moves.byte hb).1] at h
  have hbelow : below = m₁.vmStack.take (m₁.vmStack.length - b.toNat) := by
    unfold topOf at htop
    split at htop
    · simp only [List.splitAt_eq, Outcome.value.injEq, Prod.mk.injEq] at htop
      exact htop.1.symm
    · cases htop
  have htake : below.take m₁.fp = m₁.vmStack.take m₁.fp := by
    rw [hbelow, List.take_take]
    congr 1
    omega
  simp only [Callee.tailCall, reenter, htake]

/-- `OP_TAIL_CALL` and `OP_CALL` followed by `OP_RET`. -/
theorem tailCall_iff_call {bc : Bytecode} {ip : Nat}
    (hcode : bc.code[ip]? = some VmOpcode.ret.toByte)
    (hoperands : m.fp + (m.argc + 1) ≤ m.vmStack.length)
    (hcallable : ∀ c, m.callee ctx = .value c → c.Callable ctx)
    (o : Outcome Error (Cell × Interp)) :
    Continues (step ctx) (m.tailCall ctx) o ↔
      Continues (step ctx) (m.callThen bc ip (·.call ctx)) o := by
  rw [tailCall_eq, callThen, call_eq]
  cases hc : m.callee ctx with
  | value c =>
      have hstays := callee_stays hc
      have hlen := hstays.height
      have hfp := hstays.fp
      exact tailCall_iff hcode hstays (by omega) (hcallable c hc) o
  | _ => rfl

/-- `OP_TAIL_CALL_SELF` and `OP_CALL_SELF` followed by `OP_RET`. -/
theorem tailCallSelf_iff_callSelf {bc : Bytecode} {ip : Nat}
    (hcode : bc.code[ip]? = some VmOpcode.ret.toByte)
    (hoperands : m.fp + m.argc ≤ m.vmStack.length)
    (hcallable : ∀ c, m.selfCallee = .value c → c.Callable ctx)
    (o : Outcome Error (Cell × Interp)) :
    Continues (step ctx) (m.tailCallSelf >>= fun m' => .value (.goOn m')) o ↔
      Continues (step ctx) (m.callThen bc ip callSelf) o := by
  rw [tailCallSelf_eq hoperands, callThen, callSelf_eq]
  cases hc : m.selfCallee with
  | value c =>
      have hstays := selfCallee_stays hc
      have hlen := hstays.height
      have hfp := hstays.fp
      exact tailCall_iff hcode hstays (by omega) (hcallable c hc) o
  | _ => rfl

/-- A function with more parameters than an argument count reaches is not
entered by a call. -/
theorem not_called {c : Callee} {bc : Bytecode} {ip : Nat}
    {m₁ : Machine} {args : List Val} {bc₁ : Bytecode} {self : Cell}
    (hc : c = .compiled m₁ args bc₁ self) (hmany : 256 ≤ bc₁.numParams)
    (o : Outcome Error (Cell × Interp)) :
    Continues (step ctx) (m.callThen bc ip fun _ => c.call) o ↔
      o = .undefined := by
  have henter : c.call = .undefined := by
    rw [hc]
    exact if_pos hmany
  rw [callThen, henter]
  rfl

end Transparent

section Chain

variable {ctx : MachineContext} {m m' m₀ : Machine} {slots slots₀ : List Nat}

/-- A run from `m₀` that does not return from the frame of `m₀`, with the slots
of its frames. -/
inductive Chain (ctx : MachineContext) (m₀ : Machine) (slots₀ : List Nat) :
    Machine → List Nat → Prop where
  | start : Chain ctx m₀ slots₀ m₀ slots₀
  | step {m m' : Machine} {slots : List Nat} (h : Chain ctx m₀ slots₀ m slots)
      (hstep : m.step ctx = .value (.goOn m'))
      (hrange : m'.bytecode.InRange)
      (habove : m₀.frames.length ≤ m'.frames.length) :
      Chain ctx m₀ slots₀ m' (slotsAfter m m' slots)

theorem Chain.execution (hrun : Execution ctx m₀ slots₀)
    (h : Chain ctx m₀ slots₀ m slots) : Execution ctx m slots := by
  induction h with
  | start => exact hrun
  | step _ hstep hrange _ ih => exact ih.step hstep hrange

/-- What an instruction does to the frames: it keeps them, suspends the running
one, or leaves it. -/
inductive FramesStep (m m' : Machine) : Prop
  | same (hframes : m'.frames = m.frames) (hfp : m'.fp = m.fp)
  | push (f : Frame) (hframes : m'.frames = f :: m.frames) (hfp : f.fp = m.fp)
  | pop (f : Frame) (hframes : m.frames = f :: m'.frames) (hfp : m'.fp = f.fp)

theorem Machine.Stays.framesStep {d : Int} (h : Stays m m' d) :
    FramesStep m m' := .same h.frames h.fp

theorem FramesStep.of_moves {m₁ : Machine} {d : Int} (h : Stays m m₁ d)
    (h' : FramesStep m₁ m') : FramesStep m m' := by
  cases h' with
  | same hframes hfp =>
      exact .same (hframes.trans h.frames) (hfp.trans h.fp)
  | push f hframes hfp =>
      exact .push f (by rw [hframes, h.frames]) (hfp.trans h.fp)
  | pop f hframes hfp => exact .pop f (by rw [← h.frames, hframes]) hfp

theorem framesStep_return {v : Val} (h : m.return_ v = .value (.goOn m')) :
    FramesStep m m' := by
  rcases return_cases h with ⟨-, r, hdone⟩ |
    ⟨f, frames, m₂, hframes, hgo, -, -, hfp, hframes', -⟩
  · cases hdone
  · obtain rfl : m' = m₂ := by simpa using hgo
    exact .pop f (by rw [hframes, hframes']) hfp

theorem framesStep_execute {op : VmOpcode}
    (h : m.execute ctx op = .value m') : FramesStep m m' := by
  cases op with
  | call =>
      obtain ⟨b, -, hmoves | ⟨m₁, hmoves, henters⟩⟩ := call_cases h
      · exact hmoves.toStays.framesStep
      · exact (FramesStep.push _ henters.frames rfl).of_moves hmoves.toStays
  | callSelf =>
      obtain ⟨b, m₁, -, hmoves, henters⟩ := callSelf_cases h
      exact (FramesStep.push _ henters.frames rfl).of_moves hmoves.toStays
  | tailCallSelf =>
      obtain ⟨m₁, hmoves, hreenters, -⟩ := tailCallSelf_cases h
      exact (FramesStep.same hreenters.frames hreenters.fp).of_moves
        hmoves.toStays
  | _ =>
      obtain ⟨d, hstays⟩ := execute_stays (by simp) (by simp) (by simp) h
      exact hstays.framesStep

theorem framesStep_step (h : m.step ctx = .value (.goOn m')) :
    FramesStep m m' := by
  simp only [Machine.step, Outcome.bind_eq_value_iff, Prod.exists] at h
  obtain ⟨b, m₁, hb, h⟩ := h
  refine .of_moves (Moves.byte hb).2.toStays ?_
  split at h
  · cases h
  · simp only [Outcome.bind_eq_value_iff, Prod.exists] at h
    obtain ⟨v, m₂, hpop, hr⟩ := h
    exact (framesStep_return hr).of_moves (Moves.pop hpop).toStays
  · obtain ⟨b', m₂, -, hstays, ⟨m₃, hgo, hreenters⟩ | ⟨v, hr⟩⟩ :=
      tailCall_cases h
    · obtain rfl : m' = m₃ := by simpa using hgo
      exact (FramesStep.same hreenters.frames hreenters.fp).of_moves hstays
    · exact (framesStep_return hr).of_moves hstays
  · simp only [Outcome.bind_eq_value_iff] at h
    obtain ⟨m₂, hexecute, hgo⟩ := h
    obtain rfl : m₂ = m' := by simpa using hgo
    exact framesStep_execute hexecute

/-- A tail call suspends no frame. -/
theorem frames_of_tailCall
    (hop : m.opcode = some .tailCall ∨ m.opcode = some .tailCallSelf)
    (h : m.step ctx = .value (.goOn m')) :
    m'.frames.length ≤ m.frames.length := by
  simp only [Machine.step, Outcome.bind_eq_value_iff, Prod.exists] at h
  obtain ⟨b, m₁, hb, h⟩ := h
  obtain ⟨hcode, hmoves⟩ := Moves.byte hb
  rw [Machine.opcode, hcode, Option.bind_some] at hop
  rcases hop with hop | hop
  · simp only [hop] at h
    obtain ⟨b', m₂, -, hstays, ⟨m₃, hgo, hreenters⟩ | ⟨v, hr⟩⟩ :=
      tailCall_cases h
    · obtain rfl : m' = m₃ := by simpa using hgo
      rw [hreenters.frames, hstays.frames, hmoves.frames]
    · rcases return_cases hr with ⟨-, r, hdone⟩ |
        ⟨f, frames, m₃, hframes, hgo, -, -, -, hframes', -⟩
      · cases hdone
      · obtain rfl : m' = m₃ := by simpa using hgo
        rw [hstays.frames, hmoves.frames] at hframes
        rw [hframes', hframes]
        exact Nat.le_succ _
  · simp only [hop, execute, Outcome.bind_eq_value_iff] at h
    obtain ⟨m₂, hself, hgo⟩ := h
    obtain rfl : m₂ = m' := by simpa using hgo
    obtain ⟨m₃, hmoves₃, hreenters, -⟩ := tailCallSelf_cases hself
    rw [hreenters.frames, hmoves₃.frames, hmoves.frames]

/-- The bases of the frames, innermost first. -/
def Machine.bases (m : Machine) : List Nat := m.fp :: m.frames.map Frame.fp

/-- The callers of the frame of `m₀` and their bases stay as they are. -/
theorem Chain.keeps_callers (h : Chain ctx m₀ slots₀ m slots) :
    m₀.frames <:+ m.frames ∧ m₀.bases <:+ m.bases := by
  induction h with
  | start => exact ⟨List.suffix_rfl, List.suffix_rfl⟩
  | @step m m' slots _ hstep hrange habove ih =>
      obtain ⟨hframes₀, hbases₀⟩ := ih
      cases framesStep_step hstep with
      | same hframes hfp =>
          simp only [bases, hframes, hfp]
          exact ⟨hframes₀, hbases₀⟩
      | push f hframes hfp =>
          simp only [bases, hframes, List.map_cons, hfp]
          exact ⟨hframes₀.trans (List.suffix_cons _ _),
            hbases₀.trans (List.suffix_cons _ _)⟩
      | pop f hframes hfp =>
          have hbases : m.bases = m.fp :: m'.bases := by
            simp only [bases, hframes, List.map_cons, hfp]
          rw [hframes, List.suffix_cons_iff] at hframes₀
          rw [hbases, List.suffix_cons_iff] at hbases₀
          refine ⟨hframes₀.resolve_left fun heq => ?_,
            hbases₀.resolve_left fun heq => ?_⟩
          · rw [heq, List.length_cons] at habove
            omega
          · have hlen := congrArg List.length heq
            simp only [bases, List.length_cons, List.length_map] at hlen
            omega

/-- The operands of every function in range, as a bound on the heights of its
instructions. -/
def DepthOf (depth : Bytecode → Nat) (maps : Bytecode → Nat → Option Nat) :
    Prop :=
  ∀ bc : Bytecode, bc.InRange → (∃ code, HasHeights bc code (maps bc)) ∧
    ∀ p k, maps bc p = some k → k ≤ depth bc

theorem exists_depth : ∃ depth maps, DepthOf depth maps := by
  obtain ⟨maps, hmaps⟩ := exists_maps
  have hdepth : ∀ bc : Bytecode, ∃ d, bc.InRange →
      ∀ p k, maps bc p = some k → k ≤ d := by
    intro bc
    by_cases hbc : bc.InRange
    · obtain ⟨code, hheights⟩ := hmaps bc hbc
      refine ⟨(Finset.range (0 + code.bytes)).sup fun p => (maps bc p).getD 0,
        fun _ p k hk => ?_⟩
      have hp := (hheights.heights.range p k hk).2
      have hle := Finset.le_sup (f := fun p => (maps bc p).getD 0)
        (Finset.mem_range.mpr hp)
      simpa [hk] using hle
    · exact ⟨0, fun h => absurd h hbc⟩
  choose depth hdepth using hdepth
  exact ⟨depth, maps, fun bc hbc => ⟨hmaps bc hbc, hdepth bc hbc⟩⟩

/-- A chain of tail calls stays on one frame, and its stack within the slots of
the running function and its operands. -/
theorem Chain.constant {depth : Bytecode → Nat}
    {maps : Bytecode → Nat → Option Nat} (hdepth : DepthOf depth maps)
    (hrun : Execution ctx m₀ slots₀) (h : Chain ctx m₀ slots₀ m slots)
    (hframe : m.frames.length = m₀.frames.length) :
    m.frames = m₀.frames ∧ m.fp = m₀.fp ∧ ∃ n ∈ slots.head?,
      m.vmStack.length ≤ m₀.fp + n + depth m.bytecode := by
  obtain ⟨hframes, hbases⟩ := h.keeps_callers
  have hframes := (hframes.eq_of_length hframe.symm).symm
  have hbases := hbases.eq_of_length (by simp [bases, hframe])
  have hfp : m.fp = m₀.fp := (List.cons.inj hbases).1.symm
  obtain ⟨n, rest, k, rfl, hdisciplined⟩ :=
    (h.execution hrun).disciplined fun bc hbc => (hdepth bc hbc).1
  have hk := (hdepth _ hdisciplined.inRange).2 _ _ hdisciplined.at_height
  have hlen := hdisciplined.height
  exact ⟨hframes, hfp, n, rfl, by omega⟩

end Chain

section VmChain

variable {ctx : MachineContext} {stack : List Val} {frames : List VmFrame}
  {g₀ g : VmState}

/-- A run from `g₀` that does not return from the frame of `g₀`. -/
inductive VmChain (ctx : MachineContext) (stack : List Val)
    (frames : List VmFrame) (g₀ : VmState) : VmState → Prop where
  | start : VmChain ctx stack frames g₀ g₀
  | step {g g' : VmState} (out : Outside) (h : VmChain ctx stack frames g₀ g)
      (hout : g.Quiet out)
      (hstep : g.step ctx stack.length frames.length out = .value (.goOn g'))
      (hrange : g'.bytecode.InRange)
      (habove : g₀.vmFrames.length ≤ g'.vmFrames.length) :
      VmChain ctx stack frames g₀ g'

theorem VmChain.embeds {m₀ : Machine} {slots₀ : List Nat}
    (hrun : Execution ctx m₀ slots₀) (h₀ : Embeds stack frames g₀ m₀ slots₀)
    (h : VmChain ctx stack frames g₀ g) : ∃ m slots,
      Chain ctx m₀ slots₀ m slots ∧ Embeds stack frames g m slots := by
  obtain ⟨maps, hmaps⟩ := exists_maps
  induction h with
  | start => exact ⟨m₀, slots₀, .start, h₀⟩
  | step out _ hout hstep hrange habove ih =>
      obtain ⟨m, slots, hchain, hembeds⟩ := ih
      obtain ⟨n, rest, k, rfl, hm⟩ := (hchain.execution hrun).disciplined hmaps
      obtain ⟨m', hstep', hnext⟩ := hembeds.step hmaps hm hout hstep hrange
      rw [h₀.count, hnext.count] at habove
      exact ⟨m', _, hchain.step hstep' (hnext.bytecode ▸ hrange) (by omega),
        hnext⟩

/-- A chain of tail calls in the VM stays on one frame of `vm_frames`. -/
theorem VmChain.constant {depth : Bytecode → Nat}
    {maps : Bytecode → Nat → Option Nat} (hdepth : DepthOf depth maps)
    (hrun : VmRun ctx stack frames VmState.Quiet g₀)
    (h : VmChain ctx stack frames g₀ g)
    (hframe : g.vmFrames.length = g₀.vmFrames.length) :
    g.vmFrames.tail.map VmFrame.suspended =
        g₀.vmFrames.tail.map VmFrame.suspended ∧ g.fp = g₀.fp ∧
      (∃ top ∈ g.vmFrames.head?,
        g.vmStack.length ≤ g₀.fp + top.slots + depth g.bytecode) ∧
      ∀ out g', g.registers.opcode = some .tailCall ∨
          g.registers.opcode = some .tailCallSelf → g.Quiet out →
        g.step ctx stack.length frames.length out = .value (.goOn g') →
        g'.bytecode.InRange → g'.vmFrames.length ≤ g₀.vmFrames.length := by
  obtain ⟨m₀, slots₀, hrun₀, h₀⟩ := hrun.embeds
  obtain ⟨m, slots, hchain, hembeds⟩ := h.embeds hrun₀ h₀
  have hcount := hembeds.count
  have hcount₀ := h₀.count
  obtain ⟨hframes, hfp, n, hn, hheight⟩ :=
    hchain.constant hdepth hrun₀ (by omega)
  refine ⟨?_, ?_, ?_, ?_⟩
  · have hregisters := congrArg Machine.frames hembeds.registers
    have hregisters₀ := congrArg Machine.frames h₀.registers
    simp only [Machine.lift, hframes] at hregisters hregisters₀
    exact hregisters.trans hregisters₀.symm
  · rw [hembeds.fp, h₀.fp, hfp]
  · obtain ⟨top, own, hrec, rfl⟩ := hembeds.recorded
    obtain rfl : top.slots = n := by simpa using hn
    refine ⟨top, by simp [hrec.vmFrames], ?_⟩
    rw [hembeds.vmStack, h₀.fp, hembeds.bytecode, List.length_append]
    omega
  · intro out g' hop hquiet hstep hrange
    have hmaps : ∀ bc : Bytecode, bc.InRange →
      ∃ code, HasHeights bc code (maps bc) := fun bc hbc => (hdepth bc hbc).1
    obtain ⟨n', rest, k, rfl, hm⟩ := (hchain.execution hrun₀).disciplined hmaps
    obtain ⟨m', hstep', hnext⟩ := hembeds.step hmaps hm hquiet hstep hrange
    rw [hembeds.registers] at hop
    have hle := frames_of_tailCall (m := m) hop hstep'
    have hcount' := hnext.count
    omega

end VmChain

/-- A function of `n` parameters that returns 1. -/
def constantFn (n : Nat) : List Cell :=
  [.expression (List.replicate n (.symbol (mainSymbol "x"))), .long 1]

def constantBytecode (n : Nat) : Bytecode where
  code := [VmOpcode.const1.toByte, VmOpcode.ret.toByte]
  constants := []
  symbols := []
  numParams := n
  numLocals := n

/-- `(lambda (f) (f))`. -/
def tailCaller : Bytecode where
  code := [VmOpcode.loadLocal0.toByte, VmOpcode.tailCall.toByte, 0,
    VmOpcode.ret.toByte]
  constants := []
  symbols := []
  numParams := 1
  numLocals := 1

/-- Before a tail call of a function of `n` parameters without arguments, its
opcode read. -/
def atTailCall (n : Nat) : Machine where
  vmStack := List.replicate 2 (Val.temp (.lambda none (constantFn n)))
  bytecode := tailCaller
  ip := 2
  fp := 0
  currentSelf := .nil
  frames := []
  interp := startup

end NewLispNeo
