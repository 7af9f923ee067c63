/-
All operators of `arithmetikOp` on 64-bit integers, and the opcodes that compute the same
on their own path.
-/
import NewLispNeo.ArithFold
import NewLispNeo.Machine

namespace NewLispNeo

/-- The operators of `arithmetikOp`. -/
inductive IntegerOp where
  | arithmetic (op : ArithOp)
  | bitOr | bitAnd | bitXor | shiftLeft | shiftRight
deriving DecidableEq

namespace IntegerOp

/-- One step `result op= number`.  The machine's sums, differences, products and left
shifts wrap around; a shift by a count that is no position of a bit is undefined. -/
def step (op : IntegerOp) (result number : Word) : Outcome Error Word :=
  match op with
  | arithmetic op => intStep op result number
  | bitOr => .value (result ||| number)
  | bitAnd => .value (result &&& number)
  | bitXor => .value (result ^^^ number)
  | shiftLeft => if number.toNat < 64 then .value (result <<< number.toNat) else .undefined
  | shiftRight =>
      if number.toNat < 64 then .value (result.sshiftRight number.toNat) else .undefined

/-- The `switch` for a single operand. -/
def single (op : IntegerOp) (result : Word) : Word :=
  match op with
  | arithmetic .subtract => -result
  | shiftLeft => result <<< 1
  | shiftRight => result.sshiftRight 1
  | _ => result

/-- The loop over the operands after the first. -/
def loop (op : IntegerOp) : Word → List Word → Outcome Error Word
  | result, [] => .value result
  | result, number :: operands => op.step result number >>= fun result => loop op result operands

/-- `arithmetikOp` on operands that are 64-bit integers. -/
def arithmetikOp (op : IntegerOp) : List Word → Outcome Error Word
  | [] =>
      match op with
      | arithmetic .add => .value 0
      | arithmetic .multiply => .value 1
      -- the missing operand evaluates to `nilCell`
      | _ => .error .missingArgument
  | [result] => .value (op.single result)
  | result :: operands => op.loop result operands

/-! ### Exact results -/

/-- The operation on integers; the bits of a negative number are those of its 64-bit
cell. -/
def exactStep (op : IntegerOp) (a : Int) (number : Word) : Int :=
  match op with
  | arithmetic .add => a + number.toInt
  | arithmetic .subtract => a - number.toInt
  | arithmetic .multiply => a * number.toInt
  | arithmetic .divide => a.tdiv number.toInt
  | arithmetic .modulo => a.tmod number.toInt
  | bitOr => (BitVec.ofInt 64 a ||| number).toInt
  | bitAnd => (BitVec.ofInt 64 a &&& number).toInt
  | bitXor => (BitVec.ofInt 64 a ^^^ number).toInt
  | shiftLeft => a * 2 ^ number.toNat
  | shiftRight => a / 2 ^ number.toNat

def exactSingle (op : IntegerOp) (a : Int) : Int :=
  match op with
  | arithmetic .subtract => -a
  | shiftLeft => a * 2
  | shiftRight => a / 2
  | _ => a

/-- The exact result of a nonempty list of operands. -/
def exactResult (op : IntegerOp) (first : Word) : List Word → Int
  | [] => op.exactSingle first.toInt
  | operands => operands.foldl op.exactStep first.toInt

def divides (op : IntegerOp) : Prop :=
  op = arithmetic .divide ∨ op = arithmetic .modulo

def shifts (op : IntegerOp) : Prop := op = shiftLeft ∨ op = shiftRight

/-- A division by zero raises `ERR_MATH`, a shift by another count than 0 to 63 has some
value, and all else is the exact result reduced to 64 bits. -/
structure RightFrom (op : IntegerOp) (first : Word) (operands : List Word)
    (result : Outcome Error Word) : Prop where
  math : op.divides → 0 ∈ operands → result = .error .math
  defined : op.shifts → ∃ z, result = .value z
  exact : (op.divides → 0 ∉ operands) →
    (op.shifts → ∀ number ∈ operands, number.toNat < 64) →
      result = .value (BitVec.ofInt 64 (op.exactResult first operands))

/-- The same for all lists of operands; the empty sum is 0, the empty product 1. -/
def Right (op : IntegerOp) (operands : List Word) (result : Outcome Error Word) : Prop :=
  match operands with
  | [] => (op = arithmetic .add → result = .value 0) ∧
      (op = arithmetic .multiply → result = .value 1)
  | first :: operands => op.RightFrom first operands result

/-- The quotient or remainder so far is never `-2 ^ 63` when `-1` is next, up to the
first zero. -/
def TrapFree (op : IntegerOp) : Int → List Word → Prop
  | _, [] => True
  | a, number :: operands =>
      number = 0 ∨ ¬ (a = -2 ^ 63 ∧ number = -1) ∧ TrapFree op (op.exactStep a number) operands

/-- The operands on which `arithmetikOp` neither traps nor shifts out of range. -/
def Safe (op : IntegerOp) : List Word → Prop
  | [] => True
  | first :: operands =>
      (op.divides → op.TrapFree first.toInt operands) ∧
        (op.shifts → ∀ number ∈ operands, number.toNat < 64)

/-! ### One step -/

variable {op : IntegerOp} {acc number z : Word} {a : Int}

/-- The accumulator holds the exact result so far: its residue for the operations that
wrap around. -/
def Holds (op : IntegerOp) (acc : Word) (a : Int) : Prop :=
  acc = BitVec.ofInt 64 a ∧
    (op = arithmetic .add ∨ op = arithmetic .subtract ∨ op = arithmetic .multiply ∨
      op = shiftLeft ∨ acc.toInt = a)

theorem holds_start (op : IntegerOp) (acc : Word) : op.Holds acc acc.toInt :=
  ⟨BitVec.ofInt_toInt.symm, .inr (.inr (.inr (.inr rfl)))⟩

theorem holds_of_toInt (h : acc.toInt = a) : op.Holds acc a :=
  ⟨by rw [← h, BitVec.ofInt_toInt], .inr (.inr (.inr (.inr h)))⟩

theorem ofInt_sub (a b : Int) :
    BitVec.ofInt 64 (a - b) = BitVec.ofInt 64 a - BitVec.ofInt 64 b := by
  rw [Int.sub_eq_add_neg, BitVec.ofInt_add, BitVec.ofInt_neg, BitVec.sub_eq_add_neg]

theorem ofInt_two_pow (k : Nat) : BitVec.ofInt 64 (2 ^ k) = BitVec.twoPow 64 k := by
  have hcast : (2 ^ k : Int) = ((2 ^ k : Nat) : Int) := (Int.natCast_pow 2 k).symm
  apply BitVec.eq_of_toNat_eq
  rw [hcast, BitVec.ofInt_natCast, BitVec.toNat_ofNat, BitVec.toNat_twoPow]

theorem shiftLeft_eq (acc : Word) (k : Nat) :
    acc <<< k = acc * BitVec.ofInt 64 (2 ^ k) := by
  rw [ofInt_two_pow, BitVec.shiftLeft_eq_mul_twoPow]

/-- No divisor is zero, no shift is out of range and no quotient leaves the 64 bits. -/
structure StepSafe (op : IntegerOp) (acc number : Word) : Prop where
  nonzero : op.divides → number ≠ 0
  fits : op.divides → ¬ (acc = BitVec.intMin 64 ∧ number = -1)
  count : op.shifts → number.toNat < 64

theorem step_holds (h : op.Holds acc a) (hsafe : op.StepSafe acc number) :
    ∃ z, op.step acc number = .value z ∧ op.Holds z (op.exactStep a number) := by
  obtain ⟨hacc, hexact⟩ := h
  cases op with
  | arithmetic op =>
      cases op with
      | add =>
          refine ⟨_, rfl, ?_, .inl rfl⟩
          rw [hacc, exactStep, BitVec.ofInt_add, BitVec.ofInt_toInt]
      | subtract =>
          refine ⟨_, rfl, ?_, .inr (.inl rfl)⟩
          rw [hacc, exactStep, ofInt_sub, BitVec.ofInt_toInt]
      | multiply =>
          refine ⟨_, rfl, ?_, .inr (.inr (.inl rfl))⟩
          rw [hacc, exactStep, BitVec.ofInt_mul, BitVec.ofInt_toInt]
      | divide =>
          have ha : acc.toInt = a := by simpa using hexact
          have hfits := hsafe.fits (.inl rfl)
          refine ⟨acc.sdiv number, ?_, holds_of_toInt ?_⟩
          · rw [step, intStep, if_neg (hsafe.nonzero (.inl rfl)), if_neg hfits]
          · rw [exactStep, ← ha]
            exact BitVec.toInt_sdiv_of_ne_or_ne acc number (not_and_or.mp hfits)
      | modulo =>
          have ha : acc.toInt = a := by simpa using hexact
          refine ⟨acc.srem number, ?_, holds_of_toInt ?_⟩
          · rw [step, intStep, if_neg (hsafe.nonzero (.inr rfl)),
              if_neg (hsafe.fits (.inr rfl))]
          · rw [exactStep, ← ha, BitVec.toInt_srem]
  | bitOr =>
      refine ⟨_, rfl, holds_of_toInt ?_⟩
      rw [exactStep, ← hacc]
  | bitAnd =>
      refine ⟨_, rfl, holds_of_toInt ?_⟩
      rw [exactStep, ← hacc]
  | bitXor =>
      refine ⟨_, rfl, holds_of_toInt ?_⟩
      rw [exactStep, ← hacc]
  | shiftLeft =>
      refine ⟨acc <<< number.toNat, ?_, ?_, .inr (.inr (.inr (.inl rfl)))⟩
      · rw [step, if_pos (hsafe.count (.inl rfl))]
      · rw [hacc, exactStep, BitVec.ofInt_mul, shiftLeft_eq]
  | shiftRight =>
      have ha : acc.toInt = a := by simpa using hexact
      refine ⟨acc.sshiftRight number.toNat, ?_, holds_of_toInt ?_⟩
      · rw [step, if_pos (hsafe.count (.inr rfl))]
      · rw [exactStep, ← ha, BitVec.toInt_sshiftRight, Int.shiftRight_eq_div_pow]
        push_cast
        rfl

theorem single_eq (op : IntegerOp) (first : Word) :
    op.single first = BitVec.ofInt 64 (op.exactSingle first.toInt) := by
  cases op with
  | arithmetic op =>
      cases op with
      | subtract => rw [single, exactSingle, BitVec.ofInt_neg, BitVec.ofInt_toInt]
      | _ => exact BitVec.ofInt_toInt.symm
  | shiftLeft =>
      rw [single, exactSingle, BitVec.ofInt_mul, BitVec.ofInt_toInt, shiftLeft_eq]
      rfl
  | shiftRight =>
      apply BitVec.eq_of_toInt_eq
      have hexact : (first.sshiftRight 1).toInt = first.toInt / 2 := by
        rw [BitVec.toInt_sshiftRight, Int.shiftRight_eq_div_pow]
        rfl
      rw [single, exactSingle, ← hexact, BitVec.ofInt_toInt]
  | _ => exact BitVec.ofInt_toInt.symm

/-! ### All steps -/

theorem eq_intMin_iff (acc : Word) : acc = BitVec.intMin 64 ↔ acc.toInt = -2 ^ 63 := by
  rw [← BitVec.toInt_inj]
  exact Iff.rfl

/-- Without divisions by zero, traps and shifts out of range the loop computes the exact
result. -/
theorem loop_exact {operands : List Word} (h : op.Holds acc a)
    (hzero : op.divides → 0 ∉ operands) (htrap : op.divides → op.TrapFree a operands)
    (hcount : op.shifts → ∀ number ∈ operands, number.toNat < 64) :
    op.loop acc operands = .value (BitVec.ofInt 64 (operands.foldl op.exactStep a)) := by
  induction operands generalizing acc a with
  | nil => exact congrArg Outcome.value h.1
  | cons number operands ih =>
      have hnonzero : op.divides → number ≠ 0 := by
        rintro hdiv rfl
        exact hzero hdiv List.mem_cons_self
      have hstep : op.StepSafe acc number :=
        { nonzero := hnonzero
          fits := by
            rintro hdiv ⟨hacc, hminus⟩
            rcases htrap hdiv with hnull | ⟨hno, -⟩
            · exact hnonzero hdiv hnull
            · refine hno ⟨?_, hminus⟩
              have ha : acc.toInt = a := by
                rcases hdiv with rfl | rfl <;> simpa [Holds] using h.2
              rw [← ha]
              exact (eq_intMin_iff acc).mp hacc
          count := fun hshift => hcount hshift number List.mem_cons_self }
      obtain ⟨z, hz, hholds⟩ := step_holds h hstep
      rw [loop, hz, Outcome.value_bind, List.foldl_cons]
      refine ih hholds (fun hdiv hmem => hzero hdiv (List.mem_cons_of_mem number hmem))
        (fun hdiv => ?_)
        (fun hshift k hk => hcount hshift k (List.mem_cons_of_mem number hk))
      exact ((htrap hdiv).resolve_left (hnonzero hdiv)).2

/-- A division by `-1` of the least integer ends in a trap, and a division by zero in
`ERR_MATH`. -/
theorem loop_divides {operands : List Word} (hdiv : op.divides) (h : op.Holds acc a) :
    (op.TrapFree a operands → 0 ∈ operands → op.loop acc operands = .error .math) ∧
      (¬ op.TrapFree a operands → op.loop acc operands = .error .trap) := by
  have hnotShift : ¬ op.shifts := by
    rcases hdiv with rfl | rfl <;> simp [shifts]
  induction operands generalizing acc a with
  | nil => exact ⟨fun _ hmem => absurd hmem List.not_mem_nil, fun hno => absurd trivial hno⟩
  | cons number operands ih =>
      have ha : acc.toInt = a := by
        rcases hdiv with rfl | rfl <;> simpa [Holds] using h.2
      by_cases hzero : number = 0
      · have hmath : op.step acc number = .error .math := by
          rcases hdiv with rfl | rfl <;> rw [step, intStep, if_pos hzero]
        rw [loop, hmath, Outcome.error_bind]
        exact ⟨fun _ _ => rfl, fun hno => absurd (.inl hzero) hno⟩
      · by_cases htrap : a = -2 ^ 63 ∧ number = -1
        · have hmin : acc = BitVec.intMin 64 := (eq_intMin_iff acc).mpr (ha.trans htrap.1)
          have hstep : op.step acc number = .error .trap := by
            rcases hdiv with rfl | rfl <;>
              rw [step, intStep, if_neg hzero, if_pos ⟨hmin, htrap.2⟩]
          rw [loop, hstep, Outcome.error_bind]
          refine ⟨fun hfree => ?_, fun _ => rfl⟩
          rcases hfree with hnull | ⟨hno, -⟩
          · exact absurd hnull hzero
          · exact absurd htrap hno
        · have hsafe : op.StepSafe acc number :=
            ⟨fun _ => hzero, fun _ hboth => htrap ⟨ha ▸ (eq_intMin_iff acc).mp hboth.1, hboth.2⟩,
              fun hshift => absurd hshift hnotShift⟩
          obtain ⟨z, hz, hholds⟩ := step_holds h hsafe
          obtain ⟨hmath, htrapped⟩ := ih hholds
          rw [loop, hz, Outcome.value_bind]
          constructor
          · intro hfree hmem
            refine hmath (hfree.resolve_left hzero).2 ?_
            rcases List.mem_cons.mp hmem with heq | hmem
            · exact absurd heq.symm hzero
            · exact hmem
          · intro hno
            exact htrapped fun hfree => hno (.inr ⟨htrap, hfree⟩)

/-- A shift out of range makes the result undefined. -/
theorem loop_shifts {operands : List Word} (hshift : op.shifts) (h : op.Holds acc a)
    (hcount : ¬ ∀ number ∈ operands, number.toNat < 64) :
    op.loop acc operands = .undefined := by
  have hnotDivide : ¬ op.divides := by
    rcases hshift with rfl | rfl <;> simp [divides]
  induction operands generalizing acc a with
  | nil => exact absurd (by simp) hcount
  | cons number operands ih =>
      by_cases hrange : number.toNat < 64
      · have hsafe : op.StepSafe acc number :=
          ⟨fun hdiv => absurd hdiv hnotDivide, fun hdiv => absurd hdiv hnotDivide,
            fun _ => hrange⟩
        obtain ⟨z, hz, hholds⟩ := step_holds h hsafe
        rw [loop, hz, Outcome.value_bind]
        refine ih hholds fun hall => hcount ?_
        intro k hk
        rcases List.mem_cons.mp hk with rfl | hk
        · exact hrange
        · exact hall k hk
      · have hstep : op.step acc number = .undefined := by
          rcases hshift with rfl | rfl <;> rw [step, if_neg hrange]
        rw [loop, hstep, Outcome.undefined_bind]

theorem arithmetikOp_right_iff (op : IntegerOp) (operands : List Word) :
    op.Right operands (op.arithmetikOp operands) ↔ op.Safe operands := by
  cases operands with
  | nil =>
      refine ⟨fun _ => trivial, fun _ => ⟨?_, ?_⟩⟩
      · rintro rfl
        rfl
      · rintro rfl
        rfl
  | cons first operands =>
      cases operands with
      | nil =>
          refine ⟨fun _ => ⟨fun _ => trivial, fun _ => by simp⟩, fun _ => ⟨?_, ?_, ?_⟩⟩
          · exact fun _ hmem => absurd hmem List.not_mem_nil
          · exact fun _ => ⟨_, rfl⟩
          · exact fun _ _ => congrArg Outcome.value (single_eq op first)
      | cons second operands =>
          have hloop : op.arithmetikOp (first :: second :: operands) =
              op.loop first (second :: operands) := rfl
          have hstart := holds_start op first
          constructor
          · intro h
            rw [hloop] at h
            refine ⟨fun hdiv => ?_, fun hshift => ?_⟩
            · by_contra hno
              have htrap := (loop_divides hdiv hstart).2 hno
              by_cases hzero : (0 : Word) ∈ second :: operands
              · have hmath := h.math hdiv hzero
                rw [htrap] at hmath
                cases hmath
              · have hnotShift : ¬ op.shifts := by
                  rcases hdiv with rfl | rfl <;> simp [shifts]
                have hvalue := h.exact (fun _ => hzero) fun hshift => absurd hshift hnotShift
                rw [htrap] at hvalue
                cases hvalue
            · by_contra hcount
              obtain ⟨z, hz⟩ := h.defined hshift
              rw [loop_shifts hshift hstart hcount] at hz
              cases hz
          · rintro ⟨htrap, hcount⟩
            refine ⟨?_, ?_, ?_⟩
            · intro hdiv hzero
              exact (loop_divides hdiv hstart).1 (htrap hdiv) hzero
            · intro hshift
              have hnotDivide : ¬ op.divides := by
                rcases hshift with rfl | rfl <;> simp [divides]
              exact ⟨_, loop_exact hstart (fun hdiv => absurd hdiv hnotDivide)
                (fun hdiv => absurd hdiv hnotDivide) hcount⟩
            · intro hzero _
              exact loop_exact hstart hzero htrap hcount

/-! ### The primitives and the opcodes -/

/-- The arithmetic opcodes: the operands that each takes from the stack, and all that it
works on. -/
inductive Opcode : VmOpcode → IntegerOp → List Word → List Word → Prop
  | add (x y : Word) : Opcode .add (arithmetic .add) [x, y] [x, y]
  | sub (x y : Word) : Opcode .sub (arithmetic .subtract) [x, y] [x, y]
  | mul (x y : Word) : Opcode .mul (arithmetic .multiply) [x, y] [x, y]
  | div (x y : Word) : Opcode .div (arithmetic .divide) [x, y] [x, y]
  | mod (x y : Word) : Opcode .mod (arithmetic .modulo) [x, y] [x, y]
  | add1 (x : Word) : Opcode .add1 (arithmetic .add) [x] [x, 1]
  | sub1 (x : Word) : Opcode .sub1 (arithmetic .subtract) [x] [x, 1]
  | sub2 (x : Word) : Opcode .sub2 (arithmetic .subtract) [x] [x, 2]
  | neg (x : Word) : Opcode .neg (arithmetic .subtract) [x] [x]

/-- The stack of `m` ends with values that are these integers now. -/
def EndsWith (m : Machine) (rest : List Val) (stack : List Word) : Prop :=
  ∃ vs, m.vmStack = rest ++ vs ∧
    List.Forall₂ (fun v x => v.deref m.interp = .value (.long x)) vs stack

variable {ctx : MachineContext} {m : Machine} {rest : List Val}

theorem binary_long {x y : Word} (h : EndsWith m rest [x, y]) (op : ArithOp) :
    m.binary ctx op = ((arithmetic op).arithmetikOp [x, y] >>= fun z =>
      .value ({ m with vmStack := rest }.push (Val.temp (.long z)))) := by
  obtain ⟨vs, hstack, hvs⟩ := h
  cases hvs with
  | cons hx hvs =>
      rename_i v vs
      cases hvs with
      | cons hy hvs =>
          rename_i w vs
          cases hvs
          simp only [Machine.binary, Machine.pop, Machine.popCell, hstack,
            List.append_cons rest v [w], List.getLast?_concat, List.dropLast_concat,
            Outcome.value_bind, hx, hy, Machine.arith, arithmetikOp, loop, step,
            Outcome.bind_assoc]

theorem binaryImmediate_long {x : Word} (h : EndsWith m rest [x]) (op : ArithOp)
    (n : Word) :
    m.binaryImmediate ctx op n = ((arithmetic op).arithmetikOp [x, n] >>= fun z =>
      .value ({ m with vmStack := rest }.push (Val.temp (.long z)))) := by
  obtain ⟨vs, hstack, hvs⟩ := h
  cases hvs with
  | cons hx hvs =>
      cases hvs
      simp only [Machine.binaryImmediate, Machine.pop, Machine.popCell, hstack,
        List.getLast?_concat, List.dropLast_concat, Outcome.value_bind, hx, Machine.arith,
        arithmetikOp, loop, step, Outcome.bind_assoc]

/-- An opcode computes what `arithmetikOp` computes of the same operands. -/
theorem execute_opcode {opcode : VmOpcode} {stack operands : List Word}
    (hop : Opcode opcode op stack operands) (h : EndsWith m rest stack) :
    m.execute ctx opcode = (op.arithmetikOp operands >>= fun z =>
      .value ({ m with vmStack := rest }.push (Val.temp (.long z)))) := by
  cases hop with
  | add x y => exact binary_long h .add
  | sub x y => exact binary_long h .subtract
  | mul x y => exact binary_long h .multiply
  | div x y => exact binary_long h .divide
  | mod x y => exact binary_long h .modulo
  | add1 x => exact binaryImmediate_long h .add 1
  | sub1 x => exact binaryImmediate_long h .subtract 1
  | sub2 x => exact binaryImmediate_long h .subtract 2
  | neg x =>
      obtain ⟨vs, hstack, hvs⟩ := h
      cases hvs with
      | cons hx hvs =>
          cases hvs
          simp only [Machine.execute, Machine.negate, Machine.pop, Machine.popCell, hstack,
            List.getLast?_concat, List.dropLast_concat, Outcome.value_bind, hx, arithmetikOp,
            single]

/-- The primitive and all opcodes for the operator give a right result on the
operands. -/
structure Total (op : IntegerOp) (operands : List Word) : Prop where
  primitive : op.Right operands (op.arithmetikOp operands)
  opcodes : ∀ (ctx : MachineContext) (m : Machine) (rest : List Val) (opcode : VmOpcode)
    (stack : List Word), Opcode opcode op stack operands → EndsWith m rest stack →
      ∃ r, op.Right operands r ∧ m.execute ctx opcode = (r >>= fun z =>
        .value ({ m with vmStack := rest }.push (Val.temp (.long z))))

/-- Integer arithmetic is total except where `-2 ^ 63` is divided by `-1` and for shifts
by a count outside 0 to 63. -/
theorem total_iff (op : IntegerOp) (operands : List Word) :
    op.Total operands ↔ op.Safe operands := by
  constructor
  · intro h
    exact (arithmetikOp_right_iff op operands).mp h.primitive
  · intro h
    have hright := (arithmetikOp_right_iff op operands).mpr h
    exact ⟨hright, fun ctx m rest opcode stack hop hstack =>
      ⟨op.arithmetikOp operands, hright, execute_opcode hop hstack⟩⟩

/-- `(/ -9223372036854775808 -1)` traps, and `(<< 1 64)` shifts by the width. -/
theorem not_total : ¬ (arithmetic .divide).Total [0x8000000000000000, -1] ∧
    ¬ shiftLeft.Total [1, 64] := by
  constructor
  · intro h
    have hvalue := h.primitive.exact (fun _ => by decide) fun hshift => by
      rcases hshift with heq | heq <;> cases heq
    cases hvalue
  · intro h
    obtain ⟨z, hz⟩ := h.primitive.defined (.inl rfl)
    cases hz

end IntegerOp

end NewLispNeo
