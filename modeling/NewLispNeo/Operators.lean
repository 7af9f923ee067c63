/-
The inlined operators: when the code the compiler emits for one of them gives
the result of the primitive it stands for.
-/
import NewLispNeo.Operands

namespace NewLispNeo

open StepRun Machine Compiler

/-- The operators the compiler inlines. -/
inductive Operator where
  | add | subtract | multiply | divide
  | compare (op : CompareOp)
  | inc | dec
deriving DecidableEq

namespace Operator

def name : Operator → String
  | add => "+"
  | subtract => "-"
  | multiply => "*"
  | divide => "/"
  | compare .less => "<"
  | compare .greater => ">"
  | compare .lessEqual => "<="
  | compare .greaterEqual => ">="
  | compare .equal => "="
  | compare .notEqual => "!="
  | inc => "inc"
  | dec => "dec"

def primitive : Operator → Primitive
  | add => .add
  | subtract => .subtract
  | multiply => .multiply
  | divide => .divide
  | compare .less => .less
  | compare .greater => .greater
  | compare .lessEqual => .lessEqual
  | compare .greaterEqual => .greaterEqual
  | compare .equal => .equal
  | compare .notEqual => .notEqual
  | inc => .incrementF
  | dec => .decrementF

/-- The contents of `(lambda (params) (op operands))`. -/
def lambda (op : Operator) (params : List Symbol) (operands : List Cell) :
    List Cell :=
  [.expression (params.map .symbol),
    .expression (.symbol ⟨"MAIN", op.name⟩ :: operands)]

end Operator

/-- The literal `1` in front of another operand, which `compileExpr` turns into
an increment of that operand. -/
def isIncrement : List Cell → Bool
  | [e, e'] => isLong 1 e && !isLong 1 e'
  | _ => false

section

variable (rt : Runtime) (flags : SymbolFlags)

/-- The steps of a fold agree: what the machine would evaluate once more
evaluates to itself, and the operand of a bigint is not `nilCell`. -/
def FoldAgrees (op : ArithOp) : Cell → List Val → Prop
  | _, [] => True
  | a, w :: ws =>
      (isNumber a = true → isSelfEval w.cell = true) ∧
      ((∃ x, a = .bigint x) → w.isNilCell = false) ∧
      ∀ c, combine rt op a w.cell = .value c → FoldAgrees op c ws

/-- One operand is returned as it is, so it has to be an integer; of several the
first must evaluate to itself and not be `nilCell`. -/
def NaryAgrees (op : ArithOp) : List Val → Prop
  | [] => True
  | [v] => isInt v.cell = true
  | v :: ws =>
      isSelfEval v.cell = true ∧ v.isNilCell = false ∧
        FoldAgrees rt op v.cell ws

/-- An increment of a bigint gives a bigint, where the primitive, which reads
the literal first, gives a 64-bit integer. -/
def IncrementAgrees : List Val → Prop
  | [_, w] => isSelfEval w.cell = true ∧ ∀ x, w.cell ≠ .bigint x
  | _ => True

def NegateAgrees : List Val → Prop
  | [v] => isSelfEval v.cell = true ∧ v.isNilCell = false
  | vs => NaryAgrees rt .subtract vs

/-- Only `OP_GT` and `OP_GE` take the `9` of a comparison with a NaN for a
verdict. -/
def CompareAgrees (op : CompareOp) : List Val → Prop
  | [v, w] =>
      op = .greater ∨ op = .greaterEqual →
        compareCells rt v.cell w.cell ≠ .value 9
  | _ => True

/-- The delta of an `inc` or `dec`. -/
def deltaOf : List Val → Cell
  | [] => .long 1
  | w :: _ => w.cell

/-- `inc` and `dec` add floats, the machine integers: they agree only where both
refuse what is not a number. -/
def IncDecAgrees : List Cell → List Val → Prop
  | .symbol s :: _, v :: ws =>
      isProtected flags s = false ∧ v.isNilCell = false ∧
      isSelfEval v.cell = true ∧
      (isNumber v.cell = false ∧ isNil v.cell = false ∨
        isNumber (deltaOf ws) = false ∧
          (isNumber v.cell = true → isSelfEval (deltaOf ws) = true))
  | _, _ => False

/-- When an inlined operator does what its primitive does on operands with the
values `vs`. -/
def OperatorAgrees (op : Operator) (operands : List Cell) (vs : List Val) :
    Prop :=
  match op with
  | .add =>
      if isIncrement operands then IncrementAgrees vs
      else NaryAgrees rt .add vs
  | .subtract => NegateAgrees rt vs
  | .multiply => NaryAgrees rt .multiply vs
  | .divide => NaryAgrees rt .divide vs
  | .compare op => CompareAgrees rt op vs
  | .inc | .dec => IncDecAgrees flags operands vs

/-- The result of the machine, on operands that evaluate to themselves. -/
def machineFold (op : ArithOp) : List Cell → Outcome Error Cell
  | [] => .value (.long (if op = .add then 0 else 1))
  | [a] => if op = .subtract then negateCell rt a else .value a
  | a :: bs => combineAll rt op a bs

def machineCompare (op : CompareOp) : List Cell → Outcome Error Cell
  | [a, b] => compareCells rt a b >>= fun comp =>
      .value (ofBool (comparisonTest op comp))
  | _ => .undefined

def machineIncDec (op : ArithOp) : List Val → Outcome Error Cell
  | [] => .undefined
  | v :: ws => combine rt op v.cell (deltaOf ws)

def machineResult (op : Operator) (operands : List Cell) (vs : List Val) :
    Outcome Error Cell :=
  match op with
  | .add =>
      if isIncrement operands then
        match vs with
        | [_, w] => combine rt .add w.cell (.long 1)
        | _ => .undefined
      else machineFold rt .add (vs.map Val.cell)
  | .subtract => machineFold rt .subtract (vs.map Val.cell)
  | .multiply => machineFold rt .multiply (vs.map Val.cell)
  | .divide => machineFold rt .divide (vs.map Val.cell)
  | .compare op => machineCompare rt op (vs.map Val.cell)
  | .inc => machineIncDec rt .add vs
  | .dec => machineIncDec rt .subtract vs

/-- One step of the primitive: a bigint takes `nilCell` for a missing
argument. -/
def treeStep (op : ArithOp) (a : Cell) (w : Val) : Outcome Error Cell :=
  match a with
  | .bigint x => errorProcArgs w (combine rt op (.bigint x) w.cell)
  | a => combine rt op a w.cell

/-- The fold of the primitive. -/
def treeAll (op : ArithOp) (a : Cell) : List Val → Outcome Error Cell
  | [] => .value a
  | w :: ws => do
      let c ← treeStep rt op a w
      treeAll op c ws

def treeFold (op : ArithOp) : List Val → Outcome Error Cell
  | [] => .value (.long (if op = .add then 0 else 1))
  | [v] =>
      match v.cell with
      | .bigint x =>
          .value (.bigint (if op = .subtract then negateBigint x else x))
      | a => do
          let x ← errorProcArgs v (getInteger64 rt a)
          .value (.long (if op = .subtract then -x else x))
  | v :: ws =>
      if v.isNilCell then .error .missingArgument
      else treeAll rt op v.cell ws

end

section

variable {rt : Runtime} {flags : SymbolFlags} {op : ArithOp}

/-- `nilCell` is no number. -/
theorem Val.cell_of_isNilCell {v : Val} (h : v.isNilCell = true) :
    v.cell = .nil := by
  unfold Val.isNilCell at h
  split at h
  · rfl
  · cases h

theorem treeStep_eq {a : Cell} {w : Val}
    (h : (∃ x, a = .bigint x) → w.isNilCell = false) :
    treeStep rt op a w = combine rt op a w.cell := by
  cases a with
  | bigint x => exact errorProcArgs_of_not_nilCell (h ⟨x, rfl⟩) _
  | _ => rfl

theorem treeStep_bigint_nilCell (rt : Runtime) (op : ArithOp) (x : Bigint)
    {w : Val}
    (hw : w.isNilCell = true) :
    treeStep rt op (.bigint x) w = .error .missingArgument ∧
      combine rt op (.bigint x) w.cell = .error .numberExpected := by
  simp [treeStep, Val.cell_of_isNilCell hw, combine, getBigintSizeDirect,
    errorProcArgs, hw]

theorem treeAll_eq (a : Cell) (ws : List Val) (h : FoldAgrees rt op a ws) :
    treeAll rt op a ws = combineAll rt op a (ws.map Val.cell) := by
  induction ws generalizing a with
  | nil => rfl
  | cons w ws ih =>
      obtain ⟨-, hnil, hrest⟩ := h
      simp only [treeAll, combineAll, List.map_cons, treeStep_eq hnil]
      cases h : combine rt op a w.cell with
      | value c => simpa using ih c (hrest c h)
      | _ => rfl

/-- On operands that evaluate to themselves the steps have to agree. -/
theorem foldAgrees_of_treeAll_eq (a : Cell) (ws : List Val)
    (hself : ∀ w ∈ ws, isSelfEval w.cell = true)
    (h : treeAll rt op a ws = combineAll rt op a (ws.map Val.cell)) :
    FoldAgrees rt op a ws := by
  induction ws generalizing a with
  | nil => trivial
  | cons w ws ih =>
      have hnil : (∃ x, a = .bigint x) → w.isNilCell = false := by
        rintro ⟨x, rfl⟩
        by_contra hw
        have hstep := treeStep_bigint_nilCell rt op x
          (Bool.of_not_eq_false hw)
        simp [treeAll, combineAll, hstep] at h
      refine ⟨fun _ => hself w List.mem_cons_self, hnil, fun c hc => ?_⟩
      refine ih c (fun w' hw' => hself w' (List.mem_cons_of_mem _ hw')) ?_
      simpa [treeAll, combineAll, treeStep_eq hnil, hc] using h

/-- What the machine evaluates again on its way through a fold evaluates to
itself. -/
def FoldSettled (rt : Runtime) (op : ArithOp) : Cell → List Cell → Prop
  | _, [] => True
  | a, b :: bs =>
      (isNumber a = true → isSelfEval b = true) ∧
      ∀ c, combine rt op a b = .value c → FoldSettled rt op c bs

theorem FoldAgrees.settled {a : Cell} {ws : List Val}
    (h : FoldAgrees rt op a ws) : FoldSettled rt op a (ws.map Val.cell) := by
  induction ws generalizing a with
  | nil => trivial
  | cons w ws ih => exact ⟨h.1, fun c hc => ih (h.2.2 c hc)⟩

theorem foldSettled_of_selfEval {a : Cell} {bs : List Cell}
    (h : ∀ b ∈ bs, isSelfEval b = true) : FoldSettled rt op a bs := by
  induction bs generalizing a with
  | nil => trivial
  | cons b bs ih =>
      exact ⟨fun _ => h b List.mem_cons_self,
        fun c _ => ih fun b' hb' => h b' (List.mem_cons_of_mem _ hb')⟩

/-- The same for the operands of `+`, `-`, `*` and `/`. -/
def FoldedSettled (rt : Runtime) (op : ArithOp) : List Val → Prop
  | [] => True
  | [v] => op = .subtract → isSelfEval v.cell = true
  | v :: ws =>
      isSelfEval v.cell = true ∧ FoldSettled rt op v.cell (ws.map Val.cell)

/-- The same for a whole operator. -/
def Settled (rt : Runtime) (op : Operator) (operands : List Cell)
    (vs : List Val) : Prop :=
  match op with
  | .add =>
      if isIncrement operands then
        ∀ w ∈ vs.getLast?, isSelfEval w.cell = true
      else FoldedSettled rt .add vs
  | .subtract => FoldedSettled rt .subtract vs
  | .multiply => FoldedSettled rt .multiply vs
  | .divide => FoldedSettled rt .divide vs
  | .compare _ => True
  | .inc | .dec =>
      match vs with
      | [] => True
      | v :: ws => isSelfEval v.cell = true ∧
          (isNumber v.cell = true → isSelfEval (deltaOf ws) = true)

/-- `compareOp` on two operands. -/
def treeCompare (rt : Runtime) (op : CompareOp) :
    List Val → Outcome Error Cell
  | [v, w] => do
      let comp ← compareCells rt v.cell w.cell
      .value ((compareStop op comp).getD .true_)
  | _ => .undefined

/-- `incDecF` on a variable whose cell evaluates to itself. -/
def treeIncDec (rt : Runtime) (flags : SymbolFlags) (type : Bool) :
    List Cell → List Val → Outcome Error Cell
  | .symbol s :: _, v :: ws =>
      if isProtected flags s then .error .symbolProtected
      else do
        let lValue ← if isNil v.cell then .value Binary64.zero
          else getFloat rt v.cell
        if v.isNilCell then .error .invalidParameter
        else do
          let adjust ← getFloat rt (deltaOf ws)
          .value (.float (lValue.add (if type then adjust else adjust.neg)))
  | _, _ => .undefined

/-- The result of the primitive. -/
def treeResult (rt : Runtime) (flags : SymbolFlags) (op : Operator)
    (operands : List Cell) (vs : List Val) : Outcome Error Cell :=
  match op with
  | .add => treeFold rt .add vs
  | .subtract => treeFold rt .subtract vs
  | .multiply => treeFold rt .multiply vs
  | .divide => treeFold rt .divide vs
  | .compare op => treeCompare rt op vs
  | .inc => treeIncDec rt flags true operands vs
  | .dec => treeIncDec rt flags false operands vs

/-- The two verdicts differ on a NaN only, and not for every operator. -/
theorem compareStop_eq_iff (op : CompareOp) (comp : Int) :
    (compareStop op comp).getD .true_ = ofBool (comparisonTest op comp) ↔
      (op = .greater ∨ op = .greaterEqual → comp ≠ 9) := by
  by_cases h9 : comp = 9
  · subst h9
    cases op <;> simp [compareStop, comparisonTest, ofBool]
  · have hright : op = .greater ∨ op = .greaterEqual → comp ≠ 9 :=
      fun _ => h9
    rw [iff_true_right hright]
    cases op <;> simp only [compareStop, if_neg h9, comparisonTest, ofBool]
    case less => rcases lt_or_ge comp 0 with h | h <;> simp [h, not_le.mpr, not_lt.mpr]
    case greater => rcases lt_or_ge 0 comp with h | h <;> simp [h, not_le.mpr, not_lt.mpr]
    case lessEqual => rcases lt_or_ge 0 comp with h | h <;> simp [h, not_le.mpr, not_lt.mpr]
    case greaterEqual => rcases lt_or_ge comp 0 with h | h <;> simp [h, not_le.mpr, not_lt.mpr]
    case equal => by_cases h : comp = 0 <;> simp [h]
    case notEqual => by_cases h : comp = 0 <;> simp [h]

theorem getInteger64_of_not_number {a : Cell} (ha : isNumber a = false) :
    getInteger64 rt a = .error .numberExpected := by
  cases a <;> first | rfl | simp [isNumber] at ha

theorem getFloat_of_not_number {a : Cell} (ha : isNumber a = false) :
    getFloat rt a = .error .numberExpected := by
  cases a <;> first | rfl | simp [isNumber] at ha

/-- One operand under `+`, `*` or `/`. -/
theorem treeFold_one_iff (hop : op ≠ .subtract) (v : Val) :
    treeFold rt op [v] = machineFold rt op [v.cell] ↔ isInt v.cell = true := by
  simp only [treeFold, machineFold, if_neg hop]
  cases hv : v.cell <;>
    simp [isInt, getInteger64, errorProcArgs] <;> split <;> simp

/-- One operand under `-`. -/
theorem treeFold_negate_iff (v : Val) :
    treeFold rt .subtract [v] = machineFold rt .subtract [v.cell] ↔
      v.isNilCell = false := by
  simp only [treeFold, machineFold, if_true]
  by_cases hv : v.isNilCell = true
  · simp [Val.cell_of_isNilCell hv, negateCell, getInteger64, errorProcArgs,
      hv]
  · have hv' : v.isNilCell = false := by simpa using hv
    simp only [errorProcArgs_of_not_nilCell hv', hv', iff_true]
    cases v.cell <;> rfl

/-- Several operands. -/
theorem treeFold_many (v w : Val) (ws : List Val)
    (h : NaryAgrees rt op (v :: w :: ws)) :
    treeFold rt op (v :: w :: ws) =
      machineFold rt op ((v :: w :: ws).map Val.cell) := by
  obtain ⟨-, hv, hfold⟩ := h
  simp only [treeFold, hv, Bool.false_eq_true, if_false]
  exact treeAll_eq v.cell (w :: ws) hfold

theorem naryAgrees_of_many (v w : Val) (ws : List Val)
    (hself : ∀ u ∈ v :: w :: ws, isSelfEval u.cell = true)
    (h : treeFold rt op (v :: w :: ws) =
      machineFold rt op ((v :: w :: ws).map Val.cell)) :
    NaryAgrees rt op (v :: w :: ws) := by
  have hnil : v.isNilCell = false := by
    by_contra hv
    have hv : v.isNilCell = true := by simpa using hv
    simp [treeFold, hv, machineFold, combineAll, Val.cell_of_isNilCell hv,
      combine, getInteger64] at h
  refine ⟨hself v List.mem_cons_self, hnil, ?_⟩
  simp only [treeFold, hnil, Bool.false_eq_true, if_false] at h
  exact foldAgrees_of_treeAll_eq v.cell (w :: ws)
    (fun u hu => hself u (List.mem_cons_of_mem _ hu)) h

/-- `+` and `*` on any number of operands, `/` on two or more. -/
theorem treeFold_eq (hop : op ≠ .subtract) (vs : List Val)
    (h : NaryAgrees rt op vs) :
    treeFold rt op vs = machineFold rt op (vs.map Val.cell) := by
  match vs with
  | [] => rfl
  | [v] => exact (treeFold_one_iff hop v).mpr h
  | v :: w :: ws => exact treeFold_many v w ws h

theorem naryAgrees_of_eq (hop : op ≠ .subtract) (vs : List Val)
    (hself : ∀ u ∈ vs, isSelfEval u.cell = true)
    (h : treeFold rt op vs = machineFold rt op (vs.map Val.cell)) :
    NaryAgrees rt op vs := by
  match vs with
  | [] => trivial
  | [v] => exact (treeFold_one_iff hop v).mp h
  | v :: w :: ws => exact naryAgrees_of_many v w ws hself h

/-- `-` on one operand or more. -/
theorem treeFold_subtract_eq (vs : List Val) (h : NegateAgrees rt vs) :
    treeFold rt .subtract vs = machineFold rt .subtract (vs.map Val.cell) := by
  match vs with
  | [] => rfl
  | [v] => exact (treeFold_negate_iff v).mpr h.2
  | v :: w :: ws => exact treeFold_many v w ws h

theorem negateAgrees_of_eq (vs : List Val)
    (hself : ∀ u ∈ vs, isSelfEval u.cell = true)
    (h : treeFold rt .subtract vs =
      machineFold rt .subtract (vs.map Val.cell)) : NegateAgrees rt vs := by
  match vs with
  | [] => trivial
  | [v] =>
      exact ⟨hself v List.mem_cons_self, (treeFold_negate_iff v).mp h⟩
  | v :: w :: ws => exact naryAgrees_of_many v w ws hself h

/-- The literal `1` in front. -/
theorem treeFold_increment_iff (w : Val) :
    treeFold rt .add [Val.temp (.long 1), w] =
        combine rt .add w.cell (.long 1) ↔ ∀ x, w.cell ≠ .bigint x := by
  simp only [treeFold, Val.temp_isNilCell, Bool.false_eq_true, if_false,
    Val.temp_cell, treeAll, treeStep]
  cases hw : w.cell with
  | bigint x =>
      simp only [combine, getInteger64, Outcome.value_bind, intStep,
        getBigintSizeDirect, bigStep, ne_eq, Cell.bigint.injEq]
      cases rt.bigintToInt64 x <;> simp
  | long n => simp [combine, getInteger64, intStep, BitVec.add_comm]
  | float x => simp [combine, getInteger64, intStep, BitVec.add_comm]
  | _ => simp [combine, getInteger64]

theorem treeCompare_eq_iff (cop : CompareOp) (v w : Val) :
    treeCompare rt cop [v, w] = machineCompare rt cop [v.cell, w.cell] ↔
      CompareAgrees rt cop [v, w] := by
  simp only [treeCompare, machineCompare, CompareAgrees]
  cases h : compareCells rt v.cell w.cell with
  | value comp =>
      simp only [Outcome.value_bind, Outcome.value.injEq,
        compareStop_eq_iff, ne_eq]
  | _ => simp

/-- The errors of reading numbers and of arithmetic on them. -/
def isReadError : Error → Bool
  | .numberExpected | .numberOutOfRange | .cannotConvert | .math | .trap => true
  | _ => false

theorem getInteger64_error {a : Cell} {e : Error}
    (h : getInteger64 rt a = .error e) : isReadError e = true := by
  cases a
  case bigint b =>
    simp only [getInteger64] at h
    cases hb : rt.bigintToInt64 b <;> simp [hb] at h
    exact h ▸ rfl
  all_goals simp only [getInteger64, Outcome.error.injEq, reduceCtorEq] at h
  all_goals exact h ▸ rfl

theorem getBigintSizeDirect_error {a : Cell} {e : Error}
    (h : getBigintSizeDirect rt a = .error e) : isReadError e = true := by
  cases a
  case float b =>
    simp only [getBigintSizeDirect] at h
    cases hb : rt.floatToBigint b <;> simp [hb] at h
    exact h ▸ rfl
  all_goals
    simp only [getBigintSizeDirect, Outcome.error.injEq, reduceCtorEq] at h
  all_goals exact h ▸ rfl

theorem intStep_error {x y : Word} {e : Error}
    (h : intStep op x y = .error e) : isReadError e = true := by
  cases op <;> simp only [intStep, reduceCtorEq] at h
  all_goals
    split at h
    · exact Outcome.error.inj h ▸ rfl
    · split at h
      · exact Outcome.error.inj h ▸ rfl
      · cases h

theorem bigStep_error {x y : Bigint} {e : Error}
    (h : bigStep rt op x y = .error e) : isReadError e = true := by
  cases op <;> simp only [bigStep, reduceCtorEq] at h
  case divide =>
    cases hb : rt.divModBigint x y false <;> simp [hb] at h
    exact h ▸ rfl
  case modulo =>
    cases hb : rt.divModBigint x y true <;> simp [hb] at h
    exact h ▸ rfl

theorem combine_error {a b : Cell} {e : Error}
    (h : combine rt op a b = .error e) : isReadError e = true := by
  unfold combine at h
  split at h
  · simp only [Outcome.bind_eq_error_iff, reduceCtorEq, and_false,
      exists_false, or_false] at h
    rcases h with h | ⟨y, -, h⟩
    · exact getBigintSizeDirect_error h
    · exact bigStep_error h
  · simp only [Outcome.bind_eq_error_iff, reduceCtorEq, and_false,
      exists_false, or_false] at h
    rcases h with h | ⟨x, -, h | ⟨y, -, h⟩⟩
    · exact getInteger64_error h
    · exact getInteger64_error h
    · exact intStep_error h

theorem combine_ne_float {a b : Cell} (x : Binary64) :
    combine rt op a b ≠ .value (.float x) := by
  intro h
  obtain ⟨-, ⟨_, _, -, h⟩ | ⟨-, _, h⟩⟩ := combine_int rt op h <;> cases h

/-- A bigint that does not fit is no obstacle to finding out that the other
operand is no number. -/
theorem combine_right_not_number {a b : Cell} (ha : isNumber a = true)
    (hb : isNumber b = false) :
    combine rt op a b = .error .numberExpected := by
  cases a <;> simp only [isNumber, Bool.false_eq_true] at ha
  case bigint x => cases b <;> first | rfl | simp [isNumber] at hb
  all_goals
    simp only [combine, getInteger64_of_not_number hb, Outcome.error_bind]
    rfl

theorem getFloat_of_number (rt : Runtime) {a : Cell} (ha : isNumber a = true) :
    ∃ x, getFloat rt a = .value x := by
  cases a <;> first | exact ⟨_, rfl⟩ | simp [isNumber] at ha

/-- `inc` and `dec`. -/
theorem treeIncDec_eq_iff {type : Bool} {s : Symbol} (params : List Cell)
    {v : Val} {ws : List Val} (hv : isSelfEval v.cell = true)
    (hw : isNumber v.cell = true → isSelfEval (deltaOf ws) = true) :
    treeIncDec rt flags type (.symbol s :: params) (v :: ws) =
        machineIncDec rt op (v :: ws) ↔
      IncDecAgrees flags (.symbol s :: params) (v :: ws) := by
  simp only [treeIncDec, machineIncDec, IncDecAgrees, hv, true_and,
    and_iff_left hw]
  by_cases hp : isProtected flags s = true
  · simp only [hp, if_true, Bool.true_eq_false, false_and, iff_false]
    intro h
    cases combine_error h.symm
  simp only [hp, Bool.false_eq_true, if_false, true_and]
  by_cases hnil : v.isNilCell = true
  · have hcell := Val.cell_of_isNilCell hnil
    simp [hcell, hnil, isNil, combine, getInteger64]
  simp only [hnil, Bool.false_eq_true, if_false, true_and]
  by_cases hd : isNumber (deltaOf ws) = true
  · obtain ⟨x, hx⟩ := getFloat_of_number rt hd
    simp only [hx, Outcome.value_bind, hd, Bool.true_eq_false, or_false]
    by_cases hnum : isNumber v.cell = true
    · obtain ⟨y, hy⟩ := getFloat_of_number rt hnum
      have hn : isNil v.cell = false := by
        cases hc : v.cell <;> simp_all [isNumber, isNil]
      simp only [hn, Bool.false_eq_true, if_false, hy, Outcome.value_bind,
        hnum, Bool.true_eq_false, and_true, iff_false]
      exact fun h => combine_ne_float _ h.symm
    · have hnum : isNumber v.cell = false := by simpa using hnum
      rw [combine_of_not_number rt op hnum]
      by_cases hn : isNil v.cell = true
      · simp [hn]
      · simp [hn, getFloat_of_not_number hnum, hnum]
  · have hd : isNumber (deltaOf ws) = false := by simpa using hd
    simp only [getFloat_of_not_number hd, Outcome.error_bind, hd, or_true,
      iff_true]
    by_cases hnum : isNumber v.cell = true
    · obtain ⟨y, hy⟩ := getFloat_of_number rt hnum
      have hn : isNil v.cell = false := by
        cases hc : v.cell <;> simp_all [isNumber, isNil]
      simp [hn, hy, combine_right_not_number hnum hd]
    · have hnum : isNumber v.cell = false := by simpa using hnum
      rw [combine_of_not_number rt op hnum]
      by_cases hn : isNil v.cell = true
      · simp [hn]
      · simp [hn, getFloat_of_not_number hnum]

/-- The operand lists `compileExpr` accepts. -/
def Operator.accepts (op : Operator) (operands : List Cell) : Prop :=
  match op with
  | .add | .multiply => True
  | .subtract => operands ≠ []
  | .divide => 2 ≤ operands.length
  | .compare _ => operands.length = 2
  | .inc | .dec => ∃ s params, operands = .symbol s :: params

theorem isIncrement_iff {operands : List Cell} (h : isIncrement operands = true) :
    ∃ e, operands = [.long 1, e] := by
  unfold isIncrement at h
  split at h
  · rename_i e e'
    cases e <;> simp_all [isLong]
  · cases h

variable {σ : Interp}

/-- The machine does what the primitive does, when the operator agrees. -/
theorem treeResult_eq {op : Operator} {operands : List Cell}
    (hacc : op.accepts operands)
    (h : OperatorAgrees rt flags op operands
      (operands.map (operandVal σ))) :
    treeResult rt flags op operands (operands.map (operandVal σ)) =
      machineResult rt op operands (operands.map (operandVal σ)) := by
  cases op with
  | add =>
      simp only [OperatorAgrees, treeResult, machineResult] at h ⊢
      split at h
      · rename_i hinc
        obtain ⟨e, rfl⟩ := isIncrement_iff hinc
        rw [if_pos hinc]
        exact (treeFold_increment_iff _).mpr h.2
      · rename_i hinc
        rw [if_neg hinc]
        exact treeFold_eq (by decide) _ h
  | subtract => exact treeFold_subtract_eq _ h
  | multiply => exact treeFold_eq (by decide) _ h
  | divide => exact treeFold_eq (by decide) _ h
  | compare cop =>
      obtain ⟨a, b, rfl⟩ := List.length_eq_two.mp hacc
      exact (treeCompare_eq_iff cop _ _).mpr h
  | inc | dec =>
      obtain ⟨s, params, rfl⟩ := hacc
      obtain ⟨hp, hnil, hself, hrest⟩ := h
      refine (treeIncDec_eq_iff params hself ?_).mpr ⟨hp, hnil, hself, hrest⟩
      rcases hrest with hrest | hrest
      · intro hnum
        simp [hrest.1] at hnum
      · exact hrest.2

theorem operatorAgrees_of_eq {op : Operator} {operands : List Cell}
    (hacc : op.accepts operands)
    (hself : (∀ cop, op ≠ .compare cop) →
      ∀ v ∈ operands.map (operandVal σ), isSelfEval v.cell = true)
    (h : treeResult rt flags op operands (operands.map (operandVal σ)) =
      machineResult rt op operands (operands.map (operandVal σ))) :
    OperatorAgrees rt flags op operands (operands.map (operandVal σ)) := by
  cases op with
  | add =>
      have hself := hself (by simp)
      simp only [OperatorAgrees, treeResult, machineResult] at h ⊢
      split at h
      · rename_i hinc
        obtain ⟨e, rfl⟩ := isIncrement_iff hinc
        rw [if_pos hinc]
        exact ⟨hself _ (by simp), (treeFold_increment_iff _).mp h⟩
      · rename_i hinc
        rw [if_neg hinc]
        exact naryAgrees_of_eq (by decide) _ hself h
  | subtract => exact negateAgrees_of_eq _ (hself (by simp)) h
  | multiply => exact naryAgrees_of_eq (by decide) _ (hself (by simp)) h
  | divide => exact naryAgrees_of_eq (by decide) _ (hself (by simp)) h
  | compare cop =>
      obtain ⟨a, b, rfl⟩ := List.length_eq_two.mp hacc
      exact (treeCompare_eq_iff cop _ _).mp h
  | inc | dec =>
      have hself := hself (by simp)
      obtain ⟨s, params, rfl⟩ := hacc
      refine (treeIncDec_eq_iff params (hself _ (by simp)) fun _ => ?_).mp h
      cases params with
      | nil => rfl
      | cons e params => exact hself (operandVal σ e) (by simp)

theorem FoldedSettled.of_agrees {op : ArithOp} {vs : List Val}
    (h : NaryAgrees rt op vs) (hop : op ≠ .subtract) :
    FoldedSettled rt op vs := by
  match vs with
  | [] => trivial
  | [v] => exact fun h => absurd h hop
  | v :: w :: ws => exact ⟨h.1, h.2.2.settled⟩

theorem FoldedSettled.of_negateAgrees {vs : List Val}
    (h : NegateAgrees rt vs) : FoldedSettled rt .subtract vs := by
  match vs with
  | [] => trivial
  | [v] => exact fun _ => h.1
  | v :: w :: ws => exact ⟨h.1, h.2.2.settled⟩

theorem foldedSettled_of_selfEval {op : ArithOp} {vs : List Val}
    (h : ∀ v ∈ vs, isSelfEval v.cell = true) : FoldedSettled rt op vs := by
  match vs with
  | [] => trivial
  | [v] => exact fun _ => h v (by simp)
  | v :: w :: ws =>
      refine ⟨h v (by simp), foldSettled_of_selfEval fun b hb => ?_⟩
      obtain ⟨u, hu, rfl⟩ := List.mem_map.mp hb
      exact h u (List.mem_cons_of_mem _ hu)

theorem deltaOf_selfEval {ws : List Val}
    (h : ∀ w ∈ ws, isSelfEval w.cell = true) :
    isSelfEval (deltaOf ws) = true := by
  cases ws with
  | nil => rfl
  | cons w ws => exact h w List.mem_cons_self

/-- An operator that agrees evaluates nothing again that is not a constant. -/
theorem OperatorAgrees.settled {op : Operator} {operands : List Cell}
    (hacc : op.accepts operands)
    (h : OperatorAgrees rt flags op operands (operands.map (operandVal σ))) :
    Settled rt op operands (operands.map (operandVal σ)) := by
  cases op with
  | add =>
      simp only [OperatorAgrees, Settled] at h ⊢
      split at h
      · rename_i hinc
        obtain ⟨e, rfl⟩ := isIncrement_iff hinc
        rw [if_pos hinc]
        simpa using h.1
      · rename_i hinc
        rw [if_neg hinc]
        exact .of_agrees h (by decide)
  | subtract => exact FoldedSettled.of_negateAgrees h
  | multiply => exact FoldedSettled.of_agrees h (by decide)
  | divide => exact FoldedSettled.of_agrees h (by decide)
  | compare cop => trivial
  | inc | dec =>
      obtain ⟨s, params, rfl⟩ := hacc
      obtain ⟨-, -, hself, hrest⟩ := h
      refine ⟨hself, ?_⟩
      rcases hrest with hrest | hrest
      · intro hnum
        simp [hrest.1] at hnum
      · exact hrest.2

theorem settled_of_selfEval (rt : Runtime) (op : Operator)
    (operands : List Cell) {vs : List Val}
    (h : (∀ cop, op ≠ .compare cop) → ∀ v ∈ vs, isSelfEval v.cell = true) :
    Settled rt op operands vs := by
  cases op with
  | add =>
      have h := h (by simp)
      simp only [Settled]
      split
      · exact fun w hw => h w (List.mem_of_getLast? hw)
      · exact foldedSettled_of_selfEval h
  | subtract | multiply | divide => exact foldedSettled_of_selfEval (h (by simp))
  | compare cop => trivial
  | inc | dec =>
      have h := h (by simp)
      cases vs with
      | nil => trivial
      | cons v ws =>
          exact ⟨h v List.mem_cons_self, fun _ =>
            deltaOf_selfEval fun w hw => h w (List.mem_cons_of_mem _ hw)⟩

end

end NewLispNeo
