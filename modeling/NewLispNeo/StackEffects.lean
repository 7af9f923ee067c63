/-
What the code of each expression does to the height of the stack: it is checked
form by form, and leaves one value, whatever lies below it.
-/
import NewLispNeo.ExprCode

namespace NewLispNeo

open StructuredCode Code

namespace VmOpcode

def isJump : VmOpcode → Bool
  | .jump | .jumpIfNil | .jumpIfNotNil => true
  | _ => false

/-- The opcode may stand at any height. -/
def standsAnywhere (o : VmOpcode) : Bool := !o.isJump && o != .ret

end VmOpcode

namespace Instr

/-- The entries an instruction takes off the stack. -/
def pops (i : Instr) : Nat :=
  match i.op with
  | .pop | .dup | .storeLocal | .storeLocal0 | .storeLocal1 | .storeLocal2
  | .storeLocal3 | .storeGlobal | .ret | .neg | .sub1 | .sub2 | .add1 => 1
  | .lt | .gt | .le | .ge | .eq | .ne | .add | .sub | .mul | .div | .mod => 2
  | .call | .tailCall => i.arg + 1
  | .callSelf | .tailCallSelf => i.arg
  | _ => 0

/-- The entries it puts there, the result of a call included. -/
def pushes (i : Instr) : Nat :=
  match i.op with
  | .nop | .pop | .storeLocal | .storeLocal0 | .storeLocal1 | .storeLocal2
  | .storeLocal3 | .storeGlobal | .ret | .jump | .jumpIfNil
  | .jumpIfNotNil => 0
  | .dup => 2
  | _ => 1

/-- The entries it takes are there, and where a function returns there is just
its value. -/
structure Fits (i : Instr) (h : Nat) : Prop where
  pops_le : i.pops ≤ h
  isJump : i.op.isJump = false
  ret : i.op = .ret → h = 1

/-- The next instruction is the one after it. -/
def falls (i : Instr) : Bool :=
  match i.op with
  | .ret | .tailCall | .tailCallSelf => false
  | _ => true

end Instr

namespace VmOpcode

def jumpPops : VmOpcode → Nat
  | .jump => 0
  | _ => 1

def jumpFalls : VmOpcode → Bool
  | .jump => false
  | _ => true

def JumpFits (o : VmOpcode) (h : Nat) : Prop := o.isJump ∧ o.jumpPops ≤ h

end VmOpcode

/-- What the machine does to the height of its stack. -/
def effects : Effects Instr VmOpcode where
  pops := Instr.pops
  pushes := Instr.pushes
  fits := Instr.Fits
  falls := Instr.falls
  jumpPops := VmOpcode.jumpPops
  jumpFits := VmOpcode.JumpFits
  jumpFalls := VmOpcode.jumpFalls

namespace Code

/-- The code leads from one height of the stack to another. -/
abbrev Typed (labels : List Nat) (code : Code) (h h' : Nat) : Prop :=
  StructuredCode.Typed effects labels code h h'

/-- The code takes `n` values and leaves `m`. -/
abbrev Takes (n m : Nat) (code : Code) : Prop :=
  StructuredCode.Takes effects n m code

section

variable {a b test way other : Code} {labels : List Nat} {n m k h h' l : Nat}

/-- The code leaves one value. -/
abbrev Raises (code : Code) : Prop := Takes 0 1 code

theorem takes_of_standsAnywhere {i : Instr}
    (hi : i.op.standsAnywhere = true) : Takes i.pops i.pushes (.instr i) := by
  simp only [VmOpcode.standsAnywhere, Bool.and_eq_true, Bool.not_eq_true',
    bne_iff_ne] at hi
  exact takes_instr fun h =>
    ⟨Nat.le_add_left _ h, hi.1, fun hret => absurd hret hi.2⟩

theorem takes_op (o : VmOpcode) (ho : o.standsAnywhere = true) :
    Takes (⟨o, 0⟩ : Instr).pops (⟨o, 0⟩ : Instr).pushes (op o) :=
  takes_of_standsAnywhere ho

theorem raises_load (slot : Nat) : Raises (load slot) := by
  match slot with
  | 0 | 1 | 2 | 3 => exact takes_of_standsAnywhere rfl
  | slot + 4 => exact takes_of_standsAnywhere rfl

theorem takes_store (slot : Nat) : Takes 1 0 (store slot) := by
  match slot with
  | 0 | 1 | 2 | 3 => exact takes_of_standsAnywhere rfl
  | slot + 4 => exact takes_of_standsAnywhere rfl

/-- An assignment leaves the value it stores. -/
theorem takes_assign (slot : Option Nat) : Takes 1 1 (assign slot) := by
  have hdup : Takes 1 2 (op .dup) := takes_op .dup rfl
  cases slot with
  | some slot => exact hdup.append ((takes_store slot).above 1)
  | none =>
      have hstore : Takes 1 0 (op .storeGlobal) := takes_op .storeGlobal rfl
      exact hdup.append (hstore.above 1)

/-- Two values and an instruction on both. -/
theorem raises_pair {o : VmOpcode} (ha : Raises a) (hb : Raises b)
    (ho : Takes 2 1 (op o)) : Raises (a ++ b ++ op o) :=
  (ha.append (hb.above 1)).append ho

theorem typed_iff (ha : Takes n m a) (hk : k = h + n) (hl : l = h + m) :
    Typed labels a k h' ↔ h' = l := by
  subst hk hl
  exact ha labels h h'

/-- A conditional jump out of a block in the middle of it. -/
theorem typed_jumpIf {o : VmOpcode} (ho : o = .jumpIfNil ∨ o = .jumpIfNotNil)
    {label : Nat} :
    Typed labels (a ++ .br o label ++ b) h h' ↔
      ∃ h₁, Typed labels a h (h₁ + 1) ∧ labels[label]? = some h₁ ∧
        Typed labels b h₁ h' := by
  have hfits : ∀ k, effects.jumpFits o k ↔ 1 ≤ k := by
    intro k
    rcases ho with rfl | rfl <;>
      simp [effects, VmOpcode.JumpFits, VmOpcode.isJump, VmOpcode.jumpPops]
  have hpops : effects.jumpPops o = 1 := by rcases ho with rfl | rfl <;> rfl
  have hfalls : effects.jumpFalls o = true := by
    rcases ho with rfl | rfl <;> rfl
  simp only [typed_append_iff, typed_br_iff, hfits, hpops, hfalls, true_imp_iff]
  constructor
  · rintro ⟨h₁, ⟨h₂, ha, hle, hlabel, rfl⟩, hb⟩
    exact ⟨h₂ - 1, by rwa [Nat.sub_add_cancel hle], hlabel, hb⟩
  · rintro ⟨h₁, ha, hlabel, hb⟩
    exact ⟨h₁, ⟨h₁ + 1, ha, by omega, hlabel, rfl⟩, hb⟩

/-- A jump at the end. -/
theorem typed_jump {label : Nat} :
    Typed labels (a ++ .br .jump label) h h' ↔
      ∃ h₁, Typed labels a h h₁ ∧ labels[label]? = some h₁ := by
  have hfits : ∀ k, effects.jumpFits .jump k ↔ True := by
    simp [effects, VmOpcode.JumpFits, VmOpcode.isJump, VmOpcode.jumpPops]
  have hpops : effects.jumpPops .jump = 0 := rfl
  have hfalls : effects.jumpFalls .jump = false := rfl
  simp only [typed_append_iff, typed_br_iff, hfits, hpops, hfalls,
    Nat.sub_zero, true_and, Bool.false_eq_true, false_imp_iff, and_true]

theorem raises_iff (ha : Raises a) : Typed labels a h h' ↔ h' = h + 1 :=
  typed_iff ha rfl rfl

/-- Two ways that both leave one value. -/
theorem raises_branch (htest : Raises test) (hway : Raises way)
    (hother : Raises other) : Raises (branch test way other) := by
  intro labels h h'
  simp only [branch, typed_block_iff, typed_append_iff (b := other), typed_jump,
    typed_jumpIf (.inl rfl), raises_iff htest,
    raises_iff hway, raises_iff hother, List.getElem?_cons_zero,
    List.getElem?_cons_succ, Option.some.injEq]
  constructor
  · rintro ⟨h₁, ⟨h₂, ⟨h₃, hh, rfl, rfl⟩, rfl⟩, -⟩
    omega
  · rintro rfl
    exact ⟨h, ⟨h + 1, ⟨h, rfl, rfl, rfl⟩, rfl⟩, rfl⟩

/-- A loop that keeps the height leaves `nil`. -/
theorem raises_repeated (htest : Raises test) (hbody : Takes 0 0 b) :
    Raises (repeated test b) := by
  intro labels h h'
  have hnil : Raises (op .nil) := takes_op .nil rfl
  have hbody' : ∀ {labels h h'}, Typed labels b h h' ↔ h' = h :=
    typed_iff hbody rfl rfl
  simp only [repeated, typed_append_iff (b := op .nil), typed_block_iff,
    typed_loop_iff, typed_jump,
    typed_jumpIf (.inl rfl), raises_iff htest,
    hbody', raises_iff hnil, List.getElem?_cons_zero, List.getElem?_cons_succ,
    Option.some.injEq]
  constructor
  · rintro ⟨h₁, ⟨h₂, ⟨h₃, hh, rfl, -⟩, -⟩, rfl⟩
    omega
  · rintro rfl
    exact ⟨h, ⟨h, ⟨h, rfl, rfl, rfl⟩, rfl⟩, rfl⟩

end

end Code

open Code

variable {ctx : CompileContext}

theorem raises_symbolCode (locals : List (Option Symbol)) (s : Symbol) :
    Raises (symbolCode ctx locals s) := by
  unfold symbolCode
  split
  · exact raises_load _
  · split
    · exact takes_op .loadSelf rfl
    · exact takes_op .loadGlobal rfl

theorem takes_varsCode (l : List Cell) (slot : Nat) :
    Takes 0 0 (varsCode l slot) := by
  induction l generalizing slot with
  | nil => exact takes_skip
  | cons v vars ih =>
      have hnil : Raises (op .nil) := takes_op .nil rfl
      exact (hnil.append (takes_store slot)).append (ih (slot + 1))

/-- A call in tail position does the same to the height as any other. -/
theorem takes_call {isTail : Bool} (argc : Nat) :
    Takes (argc + 1) 1
      (Code.call (if isTail then .tailCall else .call) argc) := by
  cases isTail <;> exact takes_of_standsAnywhere rfl

theorem takes_callSelf {isTail : Bool} (argc : Nat) :
    Takes argc 1
      (Code.call (if isTail then .tailCallSelf else .callSelf) argc) := by
  cases isTail <;> exact takes_of_standsAnywhere rfl

/-- An operator that takes one value. -/
def Unary (o : VmOpcode) : Prop :=
  o.standsAnywhere = true ∧ (⟨o, 0⟩ : Instr).pops = 1 ∧ (⟨o, 0⟩ : Instr).pushes = 1

/-- An operator that takes two values. -/
def Binary (o : VmOpcode) : Prop :=
  (⟨o, 0⟩ : Instr).pops = 2 ∧ (⟨o, 0⟩ : Instr).pushes = 1

theorem Unary.takes {o : VmOpcode} (ho : Unary o) : Takes 1 1 (op o) := by
  have h := takes_op o ho.1
  rwa [ho.2.1, ho.2.2] at h

theorem Binary.takes {o : VmOpcode} (ho : Binary o) : Takes 2 1 (op o) := by
  have hret : o.standsAnywhere = true := by
    cases o <;> first | rfl | cases ho.1
  have h := takes_op o hret
  rwa [ho.1, ho.2] at h

theorem compareOpcode_binary {name : String} {o : VmOpcode}
    (h : compareOpcode name = some o) : Binary o := by
  unfold compareOpcode at h
  repeat' split at h
  all_goals cases h <;> exact ⟨rfl, rfl⟩

/-- The code of the expressions smaller than `n` leaves one value. -/
def SmallRaises (ctx : CompileContext) (n : Nat) : Prop :=
  ∀ e, sizeOf e < n → ∀ isTail locals, Raises (exprCode ctx e isTail locals)

section

variable {n : Nat} (ih : SmallRaises ctx n) {l : List Cell} {isTail : Bool}
  {locals : List (Option Symbol)}

include ih

theorem takes_argsCode (hl : sizeOf l < n) :
    Takes 0 l.length (argsCode ctx l locals) := by
  induction l with
  | nil => exact takes_skip
  | cons arg args ihl =>
      simp only [List.cons.sizeOf_spec] at hl
      have hargs := (ihl (by omega)).above 1
      rw [argsCode, List.length_cons, Nat.add_comm args.length]
      exact (ih arg (by omega) false locals).append hargs

/-- The arguments of a call, above the function. -/
theorem takes_argsCode_above (hl : sizeOf l < n) :
    Takes 1 (l.length + 1) (argsCode ctx l locals) := by
  rw [Nat.add_comm]
  exact (takes_argsCode ih hl).above 1

theorem raises_bodyCode (hl : sizeOf l < n) :
    Raises (bodyCode ctx l isTail locals) := by
  induction l with
  | nil => exact takes_op .nil rfl
  | cons body rest ihl =>
      simp only [List.cons.sizeOf_spec] at hl
      cases rest with
      | nil => exact ih body (by omega) isTail locals
      | cons e rest =>
          have hpop : Takes 1 0 (op .pop) := takes_op .pop rfl
          exact ((ih body (by omega) false locals).append hpop).append
            (ihl (by omega))

theorem takes_loopBodyCode (hl : sizeOf l < n) :
    Takes 0 0 (loopBodyCode ctx l locals) := by
  induction l with
  | nil => exact takes_skip
  | cons body rest ihl =>
      simp only [List.cons.sizeOf_spec] at hl
      have hpop : Takes 1 0 (op .pop) := takes_op .pop rfl
      exact ((ih body (by omega) false locals).append hpop).append
        (ihl (by omega))

theorem raises_firstCode (hl : sizeOf l < n) :
    Raises (firstCode ctx l isTail locals) := by
  cases l with
  | nil => exact takes_op .nil rfl
  | cons e l =>
      simp only [List.cons.sizeOf_spec] at hl
      exact ih e (by omega) isTail locals

theorem raises_ifCode (hl : sizeOf l < n) :
    Raises (ifCode ctx l isTail locals) := by
  match l with
  | [] | [_] => exact takes_op .nil rfl
  | cond :: thenExpr :: elseExpr =>
      simp only [List.cons.sizeOf_spec] at hl
      exact raises_branch (ih cond (by omega) false locals)
        (ih thenExpr (by omega) isTail locals)
        (raises_firstCode ih (by omega))

theorem raises_whenCode (hl : sizeOf l < n) :
    Raises (whenCode ctx l isTail locals) := by
  match l with
  | [] => exact takes_op .nil rfl
  | [cond] =>
      simp only [List.cons.sizeOf_spec] at hl
      exact ih cond (by omega) isTail locals
  | cond :: e :: body =>
      have hl' : sizeOf cond < n ∧ sizeOf (e :: body) < n := by
        simp only [List.cons.sizeOf_spec] at hl ⊢
        omega
      exact raises_branch (ih cond hl'.1 false locals)
        (raises_bodyCode ih hl'.2) (takes_op .nil rfl)

/-- The clauses of a `cond`, whose label 0 is the end of them: each replaces the
value on the stack. -/
theorem typed_clausesCode (hl : sizeOf l < n) {labels : List Nat}
    {h h' : Nat} :
    Code.Typed (h' :: labels) (clausesCode ctx l isTail locals) (h + 1) h' ↔
      h' = h + 1 := by
  have hpop : Takes 1 0 (op .pop) := takes_op .pop rfl
  have hdup : Takes 1 2 (op .dup) := takes_op .dup rfl
  induction l with
  | nil => exact typed_iff takes_skip rfl rfl
  | cons clause clauses ihl =>
      simp only [List.cons.sizeOf_spec] at hl
      match clause with
      | .expression [] =>
          rw [clausesCode]
          exact ihl (by omega)
      | .expression (test :: body) =>
          simp only [Cell.expression.sizeOf_spec,
            List.cons.sizeOf_spec] at hl
          have htest := (hpop.append (ih test (by omega) false locals)).append
            hdup
          have hway : Takes 1 1 (if body.isEmpty then (.skip : Code)
              else op .pop ++ bodyCode ctx body isTail locals) := by
            split
            · exact takes_skip.above 1
            · exact hpop.append (raises_bodyCode ih (by omega))
          have htest' : ∀ {labels k}, Code.Typed labels (op .pop ++
              exprCode ctx test false locals ++ op .dup) (h + 1) (k + 1) ↔
              k + 1 = h + 2 := typed_iff htest rfl rfl
          have hway' : ∀ {labels k}, Code.Typed labels
              (if body.isEmpty then (.skip : Code)
                else op .pop ++ bodyCode ctx body isTail locals)
              (h + 1) k ↔ k = h + 1 := typed_iff hway rfl rfl
          have hrest := ihl (by omega)
          rw [clausesCode]
          simp only [typed_append_iff (b := clausesCode ctx clauses isTail
              locals), typed_block_iff, typed_jump,
            typed_jumpIf (.inl rfl), htest',
            List.getElem?_cons_zero, List.getElem?_cons_succ,
            Option.some.injEq]
          constructor
          · rintro ⟨h₁, ⟨h₂, ⟨h₃, hh, rfl, hw⟩, rfl⟩, -⟩
            obtain rfl : h₁ = h + 1 := by omega
            exact hway'.mp hw
          · rintro rfl
            exact ⟨h + 1, ⟨h + 1, ⟨h + 1, rfl, rfl, hway'.mpr rfl⟩, rfl⟩,
              hrest.mpr rfl⟩
      | .nil | .true_ | .long _ | .bigint _ | .float _ | .string _ | .symbol _
      | .context _ | .primitive _ | .quote _ | .lambda _ _ | .fexpr _
      | .array _ | .dynSymbol _ _ =>
          simp only [clausesCode]
          exact typed_iff takes_skip rfl rfl

/-- The operands of an `and`: where one fails nothing is left. -/
theorem typed_andOperands (hl : sizeOf l < n) (hne : l ≠ [])
    {labels : List Nat} {h h' : Nat} :
    Code.Typed (h :: labels) (andOperands ctx l isTail locals) h h' ↔
      h' = h + 1 := by
  induction l with
  | nil => exact absurd rfl hne
  | cons arg args ihl =>
      cases args with
      | nil =>
          simp only [List.cons.sizeOf_spec] at hl
          exact raises_iff (ih arg (by omega) isTail locals)
      | cons e args =>
          have hl' : sizeOf arg < n ∧ sizeOf (e :: args) < n := by
            simp only [List.cons.sizeOf_spec] at hl ⊢
            omega
          rw [andOperands]
          · simp only [
              typed_jumpIf (.inl rfl),
              raises_iff (ih arg hl'.1 false locals),
              List.getElem?_cons_zero, Option.some.injEq, Nat.add_right_cancel_iff]
            constructor
            · rintro ⟨h₁, rfl, -, hargs⟩
              exact (ihl hl'.2 (by simp)).mp hargs
            · intro hh
              exact ⟨h, rfl, rfl, (ihl hl'.2 (by simp)).mpr hh⟩
          · simp

theorem raises_andCode (hl : sizeOf l < n) :
    Raises (andCode ctx l isTail locals) := by
  match l with
  | [] => exact takes_op .true_ rfl
  | [arg] =>
      simp only [List.cons.sizeOf_spec] at hl
      exact ih arg (by omega) isTail locals
  | arg :: e :: args =>
      have hl' : sizeOf arg < n ∧ sizeOf (e :: args) < n := by
        simp only [List.cons.sizeOf_spec] at hl ⊢
        omega
      have hnil : Raises (op .nil) := takes_op .nil rfl
      intro labels h h'
      simp only [andCode, typed_block_iff, typed_append_iff (b := op .nil),
        typed_jump, typed_jumpIf (.inl rfl),
        raises_iff (ih arg hl'.1 false locals), raises_iff hnil,
        List.getElem?_cons_zero, List.getElem?_cons_succ, Option.some.injEq,
        Nat.add_zero]
      constructor
      · rintro ⟨h₁, ⟨h₂, ⟨h₃, hh, rfl, -⟩, -⟩, rfl⟩
        omega
      · rintro rfl
        exact ⟨h, ⟨h + 1, ⟨h, rfl, rfl,
          (typed_andOperands ih hl'.2 (by simp)).mpr rfl⟩, rfl⟩, rfl⟩

/-- The operands of an `or`, whose label 0 is the end of them. -/
theorem typed_orOperands (hl : sizeOf l < n) (hne : l ≠ [])
    {labels : List Nat} {h h' : Nat} :
    Code.Typed (h' :: labels) (orOperands ctx l isTail locals) h h' ↔
      h' = h + 1 := by
  have hpop : Takes 1 0 (op .pop) := takes_op .pop rfl
  have hdup : Takes 1 2 (op .dup) := takes_op .dup rfl
  induction l with
  | nil => exact absurd rfl hne
  | cons arg args ihl =>
      cases args with
      | nil =>
          simp only [List.cons.sizeOf_spec] at hl
          exact raises_iff (ih arg (by omega) isTail locals)
      | cons e args =>
          have hl' : sizeOf arg < n ∧ sizeOf (e :: args) < n := by
            simp only [List.cons.sizeOf_spec] at hl ⊢
            omega
          have htest : ∀ {labels k}, Code.Typed labels
              (exprCode ctx arg false locals ++ op .dup) h (k + 1) ↔
              k + 1 = h + 2 :=
            typed_iff ((ih arg hl'.1 false locals).append hdup) rfl rfl
          have hpop' : ∀ {labels k}, Code.Typed labels (op .pop) (h + 1) k ↔
              k = h := typed_iff hpop rfl rfl
          rw [orOperands]
          · simp only [
              typed_jumpIf (.inr rfl),
              htest, typed_append_iff (a := op .pop),
              List.getElem?_cons_zero, Option.some.injEq]
            constructor
            · rintro ⟨h₁, hh, rfl, -⟩
              omega
            · intro hh
              exact ⟨h + 1, rfl, hh, h, hpop'.mpr rfl,
                (ihl hl'.2 (by simp)).mpr hh⟩
          · simp

theorem raises_whileCode (hl : sizeOf l < n) :
    Raises (whileCode ctx l locals) := by
  cases l with
  | nil => exact takes_op .nil rfl
  | cons cond body =>
      simp only [List.cons.sizeOf_spec] at hl
      exact raises_repeated (ih cond (by omega) false locals)
        (takes_loopBodyCode ih (by omega))

theorem takes_bindingsCode (hl : sizeOf l < n) :
    Takes 0 0 (bindingsCode ctx l locals) := by
  have hnil : Raises (op .nil) := takes_op .nil rfl
  induction hk : l.length using Nat.strong_induction_on generalizing l locals
    with
  | _ k ihl =>
    unfold bindingsCode
    split
    · simp only [List.cons.sizeOf_spec, Cell.expression.sizeOf_spec] at hl
      simp only [List.length_cons] at hk
      exact ((raises_firstCode ih (by omega)).append (takes_store _)).append
        (ihl _ (by omega) (by omega) rfl)
    · exact hnil.append (takes_store _)
    · simp only [List.cons.sizeOf_spec] at hl
      simp only [List.length_cons] at hk
      exact ((ih _ (by omega) false _).append (takes_store _)).append
        (ihl _ (by omega) (by omega) rfl)
    · exact takes_skip

theorem raises_letCode (hl : sizeOf l < n) :
    Raises (letCode ctx l isTail locals) := by
  unfold letCode
  split
  · simp only [List.cons.sizeOf_spec, Cell.expression.sizeOf_spec] at hl
    exact (takes_bindingsCode ih (by omega)).append
      (raises_bodyCode ih (by omega))
  · exact takes_op .nil rfl

theorem raises_localCode (hl : sizeOf l < n) :
    Raises (localCode ctx l isTail locals) := by
  unfold localCode
  split
  · simp only [List.cons.sizeOf_spec, Cell.expression.sizeOf_spec] at hl
    exact (takes_varsCode _ _).append (raises_bodyCode ih (by omega))
  · exact takes_op .nil rfl

theorem raises_dotimesCode (hl : sizeOf l < n) :
    Raises (dotimesCode ctx l locals) := by
  have hzero : Raises (op .const0) := takes_op .const0 rfl
  have hnil : Raises (op .nil) := takes_op .nil rfl
  have hpop : Takes 1 0 (op .pop) := takes_op .pop rfl
  have hadd : Takes 1 1 (op .add1) := takes_op .add1 rfl
  unfold dotimesCode
  split
  · rename_i s count header body
    simp only [List.cons.sizeOf_spec, Cell.expression.sizeOf_spec] at hl
    have hempty : Takes 0 0 (if body.isEmpty then op .nil ++ op .pop
        else (.skip : Code)) := by
      split
      · exact hnil.append hpop
      · exact takes_skip
    have htest := raises_pair (raises_load (locals.length + 1))
      (raises_load locals.length) (o := .lt) (takes_op .lt rfl)
    have hloop : Takes 0 0 (loopBodyCode ctx body
        (locals ++ [none, some s])) := takes_loopBodyCode ih (by omega)
    have hbody := (((hempty.append hloop).append
      (raises_load (locals.length + 1))).append hadd).append
        (takes_store (locals.length + 1))
    exact ((((ih count (by omega) false _).append (takes_store _)).append
      hzero).append (takes_store _)).append (raises_repeated htest hbody)
  · exact takes_op .nil rfl

theorem raises_setCode {isSetq : Bool} (hl : sizeOf l < n) :
    Raises (setCode ctx isSetq l locals) := by
  induction hk : l.length using Nat.strong_induction_on generalizing l locals
    with
  | _ k ihl =>
    have hpop : Takes 1 0 (op .pop) := takes_op .pop rfl
    unfold setCode
    split
    · simp only [List.cons.sizeOf_spec] at hl
      exact (ih _ (by omega) false _).append (takes_assign _)
    · simp only [List.cons.sizeOf_spec] at hl
      simp only [List.length_cons] at hk
      exact (((ih _ (by omega) false _).append (takes_assign _)).append
        hpop).append (ihl _ (by omega) (by omega) rfl)
    · exact takes_op .nil rfl

theorem raises_incCode {op1 o : VmOpcode} (hop1 : Unary op1) (ho : Binary o)
    (hl : sizeOf l < n) : Raises (incCode ctx op1 o l locals) := by
  have hglobal : Raises (op .loadGlobal) := takes_op .loadGlobal rfl
  unfold incCode
  split
  · split
    · exact ((raises_load _).append hop1.takes).append (takes_assign _)
    · exact (hglobal.append hop1.takes).append (takes_assign none)
  · simp only [List.cons.sizeOf_spec] at hl
    split
    · exact (raises_pair (raises_load _) (ih _ (by omega) false _)
        ho.takes).append (takes_assign _)
    · exact (raises_pair hglobal (ih _ (by omega) false _) ho.takes).append
        (takes_assign none)
  · exact takes_op .nil rfl

theorem raises_compareCode {o : VmOpcode} (ho : Binary o) (hl : sizeOf l < n) :
    Raises (compareCode ctx o l locals) := by
  unfold compareCode
  split
  · simp only [List.cons.sizeOf_spec] at hl
    exact raises_pair (ih _ (by omega) false _) (ih _ (by omega) false _)
      ho.takes
  · exact takes_op .nil rfl

theorem takes_operandsCode {o : VmOpcode} (ho : Binary o) (hl : sizeOf l < n) :
    Takes 1 1 (operandsCode ctx o l locals) := by
  induction l with
  | nil => exact takes_skip.above 1
  | cons arg args ihl =>
      simp only [List.cons.sizeOf_spec] at hl
      exact (((ih arg (by omega) false locals).above 1).append
        ho.takes).append (ihl (by omega))

theorem raises_fold {o : VmOpcode} (ho : Binary o) {arg : Cell}
    (harg : sizeOf arg < n) (hl : sizeOf l < n) :
    Raises (exprCode ctx arg false locals ++ operandsCode ctx o l locals) :=
  (ih arg harg false locals).append (takes_operandsCode ih ho hl)

theorem raises_addCode (hl : sizeOf l < n) : Raises (addCode ctx l locals) := by
  have hadd1 : Takes 1 1 (op .add1) := takes_op .add1 rfl
  have hadd : Takes 2 1 (op .add) := takes_op .add rfl
  unfold addCode
  split
  · exact takes_op .const0 rfl
  · simp only [List.cons.sizeOf_spec] at hl
    split
    · exact (ih _ (by omega) false _).append hadd1
    split
    · exact (ih _ (by omega) false _).append hadd1
    · exact raises_pair (ih _ (by omega) false _) (ih _ (by omega) false _) hadd
  · simp only [List.cons.sizeOf_spec] at hl
    exact raises_fold ih ⟨rfl, rfl⟩ (by omega) (by omega)

theorem raises_subtractCode (hl : sizeOf l < n) :
    Raises (subtractCode ctx l locals) := by
  have hneg : Takes 1 1 (op .neg) := takes_op .neg rfl
  have hsub1 : Takes 1 1 (op .sub1) := takes_op .sub1 rfl
  have hsub2 : Takes 1 1 (op .sub2) := takes_op .sub2 rfl
  have hsub : Takes 2 1 (op .sub) := takes_op .sub rfl
  unfold subtractCode
  split
  · exact takes_op .nil rfl
  · simp only [List.cons.sizeOf_spec] at hl
    exact (ih _ (by omega) false _).append hneg
  · simp only [List.cons.sizeOf_spec] at hl
    split
    · exact (ih _ (by omega) false _).append hsub1
    split
    · exact (ih _ (by omega) false _).append hsub2
    · exact raises_pair (ih _ (by omega) false _) (ih _ (by omega) false _) hsub
  · simp only [List.cons.sizeOf_spec] at hl
    exact raises_fold ih ⟨rfl, rfl⟩ (by omega) (by omega)

theorem raises_multiplyCode (hl : sizeOf l < n) :
    Raises (multiplyCode ctx l locals) := by
  unfold multiplyCode
  split
  · exact takes_op .const1 rfl
  · simp only [List.cons.sizeOf_spec] at hl
    exact raises_fold ih ⟨rfl, rfl⟩ (by omega) (by omega)

theorem raises_divideCode (hl : sizeOf l < n) :
    Raises (divideCode ctx l locals) := by
  unfold divideCode
  split
  · have hl' := hl
    simp only [List.cons.sizeOf_spec] at hl
    exact raises_fold ih ⟨rfl, rfl⟩ (by omega)
      (by simp only [List.cons.sizeOf_spec]; omega)
  · exact takes_op .nil rfl

/-- A list whose head is a symbol, given its smaller parts. -/
theorem raises_formCode {hsym : Symbol} (hl : sizeOf l < n) :
    Raises (exprCode ctx (.expression (.symbol hsym :: l)) isTail locals) := by
  rw [exprCode]
  by_cases h1 : hsym.name = "if"
  · rw [if_pos h1]
    exact raises_ifCode ih hl
  rw [if_neg h1]
  by_cases h2 : hsym.name = "when"
  · rw [if_pos h2]
    exact raises_whenCode ih hl
  rw [if_neg h2]
  by_cases h3 : hsym.name = "cond"
  · rw [if_pos h3]
    split
    · exact takes_op .nil rfl
    · have hnil : Raises (op .nil) := takes_op .nil rfl
      intro labels h h'
      simp only [typed_block_iff, typed_append_iff, raises_iff hnil,
        exists_eq_left]
      exact typed_clausesCode ih hl
  rw [if_neg h3]
  by_cases h4 : hsym.name = "and"
  · rw [if_pos h4]
    exact raises_andCode ih hl
  rw [if_neg h4]
  by_cases h5 : hsym.name = "or"
  · rw [if_pos h5]
    split
    · exact takes_op .nil rfl
    · rename_i hempty
      intro labels h h'
      rw [typed_block_iff]
      exact typed_orOperands ih hl (by simpa using hempty)
  rw [if_neg h5]
  by_cases h6 : hsym.name = "begin"
  · rw [if_pos h6]
    exact raises_bodyCode ih hl
  rw [if_neg h6]
  by_cases h7 : hsym.name = "while"
  · rw [if_pos h7]
    exact raises_whileCode ih hl
  rw [if_neg h7]
  by_cases h8 : hsym.name = "let"
  · rw [if_pos h8]
    exact raises_letCode ih hl
  rw [if_neg h8]
  by_cases h9 : hsym.name = "local"
  · rw [if_pos h9]
    exact raises_localCode ih hl
  rw [if_neg h9]
  by_cases h10 : hsym.name = "dotimes"
  · rw [if_pos h10]
    exact raises_dotimesCode ih hl
  rw [if_neg h10]
  by_cases h11 : hsym.name = "setq"
  · rw [if_pos h11]
    exact raises_setCode ih hl
  rw [if_neg h11]
  by_cases h12 : hsym.name = "set"
  · rw [if_pos h12]
    exact raises_setCode ih hl
  rw [if_neg h12]
  by_cases h13 : hsym.name = "inc"
  · rw [if_pos h13]
    exact raises_incCode ih ⟨rfl, rfl, rfl⟩ ⟨rfl, rfl⟩ hl
  rw [if_neg h13]
  by_cases h14 : hsym.name = "dec"
  · rw [if_pos h14]
    exact raises_incCode ih ⟨rfl, rfl, rfl⟩ ⟨rfl, rfl⟩ hl
  rw [if_neg h14]
  cases hop : compareOpcode hsym.name with
  | some o => exact raises_compareCode ih (compareOpcode_binary hop) hl
  | none =>
  simp only
  by_cases h15 : hsym.name = "+"
  · rw [if_pos h15]
    exact raises_addCode ih hl
  rw [if_neg h15]
  by_cases h16 : hsym.name = "-"
  · rw [if_pos h16]
    exact raises_subtractCode ih hl
  rw [if_neg h16]
  by_cases h17 : hsym.name = "*"
  · rw [if_pos h17]
    exact raises_multiplyCode ih hl
  rw [if_neg h17]
  by_cases h18 : hsym.name = "/"
  · rw [if_pos h18]
    exact raises_divideCode ih hl
  rw [if_neg h18]
  split
  · exact (takes_argsCode ih hl).append (takes_callSelf l.length)
  · exact ((raises_symbolCode locals hsym).append
      (takes_argsCode_above ih hl)).append (takes_call l.length)

/-- Any other list, given its smaller parts. -/
theorem raises_callCode {head : Cell} (hhead : sizeOf head < n)
    (hl : sizeOf l < n) (hsym : ∀ s, head ≠ .symbol s) :
    Raises (exprCode ctx (.expression (head :: l)) isTail locals) := by
  rw [exprCode_call ctx hsym]
  exact ((ih head hhead false locals).append
    (takes_argsCode_above ih hl)).append (takes_call l.length)

end

/-- The code of every expression leaves one value. -/
theorem smallRaises (ctx : CompileContext) (n : Nat) : SmallRaises ctx n := by
  induction n with
  | zero => intro e he; omega
  | succ n ih =>
      intro e he isTail locals
      match e with
      | .nil => exact takes_op .nil rfl
      | .true_ => exact takes_op .true_ rfl
      | .long val =>
          rw [exprCode]
          split
          · exact takes_op .const0 rfl
          split
          · exact takes_op .const1 rfl
          split
          · exact takes_op .const2 rfl
          · exact takes_op .const rfl
      | .float _ | .string _ | .quote _ => exact takes_op .const rfl
      | .symbol s => exact raises_symbolCode locals s
      | .expression [] => exact takes_op .nil rfl
      | .expression (head :: args) =>
          simp only [Cell.expression.sizeOf_spec, List.cons.sizeOf_spec] at he
          by_cases hs : ∃ s, head = .symbol s
          · obtain ⟨s, rfl⟩ := hs
            exact raises_formCode ih (by omega)
          · exact raises_callCode ih (by omega) (by omega)
              fun s hs' => hs ⟨s, hs'⟩
      | .bigint _ | .context _ | .primitive _ | .lambda _ _ | .fexpr _
      | .array _ | .dynSymbol _ _ => exact takes_op .nil rfl

theorem raises_exprCode (e : Cell) (isTail : Bool)
    (locals : List (Option Symbol)) : Raises (exprCode ctx e isTail locals) :=
  smallRaises ctx (sizeOf e + 1) e (Nat.lt_succ_self _) isTail locals

/-- The body of a lambda leaves the value that `OP_RET` returns. -/
theorem raises_lambdaBody (body : List Cell) (locals : List (Option Symbol)) :
    Raises (bodyCode ctx body true locals) :=
  raises_bodyCode (smallRaises ctx (sizeOf body + 1)) (Nat.lt_succ_self _)

end NewLispNeo
