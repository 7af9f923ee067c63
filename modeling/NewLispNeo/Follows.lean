/-
When the code of an inlined form follows the tree-walker: conditions on the
tree-walker's run of an expression, read along that run.  `Follows` says that
the code does what the tree-walker does on the way, `Leaves` that the value it
leaves behind is the tree-walker's too.
-/
import NewLispNeo.Interpreter

namespace NewLispNeo

open Compiler

/-- How much of a value the code around it looks at. -/
inductive Demand where
  | nothing | truth | all
deriving DecidableEq

/-- The machine's value serves where the tree-walker has the other one. -/
def Demand.Meets : Demand → Cell → Cell → Prop
  | .nothing, _, _ => True
  | .truth, machine, tree => isFalsy machine = isFalsy tree
  | .all, machine, tree => machine = tree

@[simp] theorem Demand.Meets.refl (d : Demand) (c : Cell) : d.Meets c c := by
  cases d <;> simp [Meets]

/-- `P` of the value and the state an evaluation ends in, if it does. -/
def After (x : Outcome Error (Val × Interp)) (P : Val → Interp → Prop) :
    Prop :=
  ∀ v σ, x = .value (v, σ) → P v σ

theorem After.of_value {x : Outcome Error (Val × Interp)} {v : Val}
    {σ : Interp} {P : Val → Interp → Prop} (h : x = .value (v, σ)) :
    After x P ↔ P v σ := by
  constructor
  · intro hP
    exact hP v σ h
  · intro hP v' σ' h'
    cases h.symm.trans h'
    exact hP

/-- The variables in scope: the slots of the compiler, and those of them whose
symbol stands for something else in the tree-walker as yet. -/
structure Scope where
  locals : List (Option Symbol)
  hidden : List Symbol

namespace Scope

/-- The slot a symbol is compiled to. -/
def slot (sc : Scope) (s : Symbol) : Option Nat := findLocalFrom s 0 sc.locals

/-- A variable whose initialiser is being evaluated. -/
def pend (sc : Scope) (s : Symbol) : Scope :=
  ⟨sc.locals ++ [some s], s :: sc.hidden⟩

/-- The same variables once they are bound. -/
def bound (sc : Scope) (symbols : List Symbol) : Scope :=
  ⟨sc.locals, sc.hidden.filter (· ∉ symbols)⟩

end Scope

/-- What stays the same while the code of one call runs: its bytecode, the
globals of the machine and the lambda itself. -/
structure Run where
  ctx : MachineContext
  bytecode : Bytecode
  globals : Interp
  self : Cell
  base : List Val
  frames : List Frame

/-- Symbols the tree-walker binds on its own: the machine never does. -/
def isAnaphoric (s : Symbol) : Bool :=
  s = itSymbol || s = listIdxSymbol || s = argsSymbol

section

variable (R : Run)

/-- The lambda reads itself from this symbol. -/
def Run.IsSelf (s : Symbol) : Prop :=
  R.ctx.compile.selfSymbol = some s ∨ s.name = "self"

instance (s : Symbol) : Decidable (R.IsSelf s) := by
  unfold Run.IsSelf; infer_instance

/-- What a symbol without a slot stands for in the compiled code. -/
def Run.global (s : Symbol) : Cell :=
  if R.IsSelf s then R.self else R.globals.contents s

/-- Symbols without a slot that need not be the same for both: those the
tree-walker binds on its own, the comma of a parameter list and the lambda. -/
def Run.IsSpecial (s : Symbol) : Prop :=
  isAnaphoric s = true ∨ s.name = "," ∨ R.IsSelf s

/-- A variable that can be read: bound already, and, where it is special, to
what the machine has for it. -/
def Readable (sc : Scope) (σ : Interp) (s : Symbol) : Prop :=
  s ∉ sc.hidden ∧
  (sc.slot s = none → R.IsSpecial s →
    R.global s = σ.contents s ∧ (s = itSymbol → R.globals.itFreed = false))

/-- A constant that the pool holds as itself. -/
def Pooled (c : Cell) : Prop :=
  ∀ k ∈ R.bytecode.constants,
    compareCells R.ctx.compile.runtime k c = .value 0 → k = c

section Forms

variable (ev : Evaluator) (F : Scope → Interp → Cell → Prop)
  (L : Demand → Interp → Cell → Prop) (sc : Scope)

/-- The rest of an `if` after a condition that failed.  The machine takes the
third operand for the last one: the tree-walker must not get beyond it. -/
def ElseFollows (σ : Interp) : List Cell → Prop
  | [] => True
  | [elseExpr] => F sc σ elseExpr
  | [condition, _] => F sc σ condition ∧
      After (ev σ condition) fun v _ => isFalsy v.cell = true
  | _ => False

def IfFollows (σ : Interp) : List Cell → Prop
  | cond :: thenExpr :: rest => F sc σ cond ∧ L .truth σ cond ∧
      After (ev σ cond) fun v σ₁ =>
        if isFalsy v.cell = true then ElseFollows ev F sc (σ₁.pointIt v) rest
        else F sc (σ₁.pointIt v) thenExpr
  | _ => True

/-- A condition that fails without another branch leaves `nil`; `v` is its
value. -/
def ElseLeaves (d : Demand) (σ : Interp) (v : Val) : List Cell → Prop
  | [] => d.Meets .nil v.cell
  | elseExpr :: _ => L d σ elseExpr

def IfLeaves (d : Demand) (σ : Interp) : List Cell → Prop
  | cond :: thenExpr :: rest => After (ev σ cond) fun v σ₁ =>
      if isFalsy v.cell = true then ElseLeaves L d (σ₁.pointIt v) v rest
      else L d (σ₁.pointIt v) thenExpr
  | _ => True

def BlockFollows : Interp → List Cell → Prop
  | _, [] => True
  | σ, e :: es => F sc σ e ∧ After (ev σ e) fun _ σ₁ => BlockFollows σ₁ es

def BlockLeaves (d : Demand) : Interp → List Cell → Prop
  | _, [] => True
  | σ, [e] => L d σ e
  | σ, e :: es => After (ev σ e) fun _ σ₁ => BlockLeaves d σ₁ es

def WhenFollows (σ : Interp) : List Cell → Prop
  | [] => True
  | [cond] => F sc σ cond
  | cond :: body => F sc σ cond ∧ L .truth σ cond ∧
      After (ev σ cond) fun v σ₁ =>
        isFalsy v.cell = false → BlockFollows ev F sc σ₁ body

def WhenLeaves (d : Demand) (σ : Interp) : List Cell → Prop
  | [] => True
  | [cond] => L d σ cond
  | cond :: body => After (ev σ cond) fun v σ₁ =>
      if isFalsy v.cell = true then d.Meets .nil v.cell
      else BlockLeaves ev L d σ₁ body

def AndFollows : Interp → List Cell → Prop
  | _, [] => True
  | σ, [e] => F sc σ e
  | σ, e :: es => F sc σ e ∧ L .truth σ e ∧ After (ev σ e) fun v σ₁ =>
      isFalsy v.cell = false → AndFollows σ₁ es

/-- An operand that fails before the last leaves `nil`. -/
def AndLeaves (d : Demand) : Interp → List Cell → Prop
  | _, [] => True
  | σ, [e] => L d σ e
  | σ, e :: es => After (ev σ e) fun v σ₁ =>
      if isFalsy v.cell = true then d.Meets .nil v.cell
      else AndLeaves d σ₁ es

def OrFollows : Interp → List Cell → Prop
  | _, [] => True
  | σ, [e] => F sc σ e
  | σ, e :: es => F sc σ e ∧ L .truth σ e ∧ After (ev σ e) fun v σ₁ =>
      isFalsy v.cell = true → OrFollows σ₁ es

def OrLeaves (d : Demand) : Interp → List Cell → Prop
  | _, [] => True
  | σ, [e] => L d σ e
  | σ, e :: es => After (ev σ e) fun v σ₁ =>
      if isFalsy v.cell = true then OrLeaves d σ₁ es else L d σ e

/-- The machine passes over a clause that is empty, the tree-walker takes it for
a test that fails with `nil`: it must not come last after a test. -/
def ClausesFollows : Bool → Interp → List Cell → Prop
  | _, _, [] => True
  | tested, σ, .expression [] :: clauses =>
      (tested = true → ∃ clause ∈ clauses, isEmpty clause = false) ∧
        ClausesFollows tested σ clauses
  | _, σ, .expression (test :: body) :: clauses => F sc σ test ∧
      L .truth σ test ∧ After (ev σ test) fun v σ₁ =>
        if isFalsy v.cell = true then ClausesFollows true σ₁ clauses
        else BlockFollows ev F sc σ₁ body
  | _, _, _ => True

/-- `last` is what to ask of the test before, whose value stays when no clause
is taken. -/
def ClausesLeaves (d : Demand) : Prop → Interp → List Cell → Prop
  | last, _, [] => last
  | last, σ, .expression [] :: clauses => ClausesLeaves d last σ clauses
  | _, σ, .expression (test :: body) :: clauses =>
      After (ev σ test) fun v σ₁ =>
        if isFalsy v.cell = true then ClausesLeaves d (L d σ test) σ₁ clauses
        else if body = [] then L d σ test
        else BlockLeaves ev L d σ₁ body
  | _, _, _ => True

/-- The initialiser of one variable, read in the scope the machine has for it:
its own variable and those before it are not to be touched. -/
def InitFollows (σ : Interp) : List Cell → Prop
  | [] => True
  | e :: _ => F sc σ e ∧ L .all σ e

/-- Where the variables of a `let` are bound after its initialisers. -/
def bindingScope : Scope → List Cell → Scope
  | sc, .expression (.symbol s :: _) :: inits => bindingScope (sc.pend s) inits
  | sc, [.symbol s] => sc.pend s
  | sc, .symbol s :: _ :: inits => bindingScope (sc.pend s) inits
  | sc, _ => sc

def bindingSymbols : List Cell → List Symbol
  | .expression (.symbol s :: _) :: inits => s :: bindingSymbols inits
  | [.symbol s] => [s]
  | .symbol s :: _ :: inits => s :: bindingSymbols inits
  | _ => []

end Forms

section Binding

variable (ev : Evaluator) (F : Scope → Interp → Cell → Prop)
  (L : Demand → Interp → Cell → Prop) (flags : SymbolFlags)

def InitsFollows : Scope → Interp → List Cell → Prop
  | sc, σ, .expression (.symbol s :: init) :: inits =>
      InitFollows F L (sc.pend s) σ init ∧
        After (evaluateParam ev σ init) fun _ σ₁ =>
          InitsFollows (sc.pend s) σ₁ inits
  | sc, σ, .symbol s :: init :: inits =>
      InitFollows F L (sc.pend s) σ [init] ∧ After (ev σ init) fun _ σ₁ =>
        InitsFollows (sc.pend s) σ₁ inits
  | _, _, _ => True

/-- `P` of the state in which the body of a `let` is evaluated. -/
def InLet (σ : Interp) (inits : List Cell) (P : Interp → Prop) : Prop :=
  ∀ list σ₁ σ₂ saved, letInits ev σ inits = .value (list, σ₁) →
    letBind flags σ₁ [] list = .value (σ₂, saved) → P σ₂

def LetFollows (sc : Scope) (σ : Interp) : List Cell → Prop
  | .expression inits :: body => InitsFollows ev F L sc σ inits ∧
      InLet ev flags σ inits fun σ₂ =>
        BlockFollows ev F ((bindingScope sc inits).bound (bindingSymbols inits))
          σ₂ body
  | _ => True

def LetLeaves (d : Demand) (σ : Interp) : List Cell → Prop
  | .expression inits :: body =>
      InLet ev flags σ inits fun σ₂ => BlockLeaves ev L d σ₂ body
  | _ => True

/-- The variables of a `local`, which are all symbols. -/
def localSymbols : List Cell → List Symbol
  | .symbol s :: vars => s :: localSymbols vars
  | _ => []

/-- Where they are bound. -/
def localScope (sc : Scope) (vars : List Symbol) : Scope :=
  Scope.bound ⟨sc.locals ++ vars.map some, sc.hidden⟩ vars

def LocalFollows (sc : Scope) (σ : Interp) : List Cell → Prop
  | .expression vars :: body => ∀ σ₁ saved,
      localBind flags σ [] vars = .value (σ₁, saved) →
        BlockFollows ev F (localScope sc (localSymbols vars)) σ₁ body
  | _ => True

def LocalLeaves (d : Demand) (σ : Interp) : List Cell → Prop
  | .expression vars :: body => ∀ σ₁ saved,
      localBind flags σ [] vars = .value (σ₁, saved) →
        BlockLeaves ev L d σ₁ body
  | _ => True

/-- A variable that can be assigned in its slot. -/
def Settable (sc : Scope) (s : Symbol) : Prop :=
  s ∉ sc.hidden ∧ sc.slot s ≠ none

def SetfFollows (sc : Scope) : Interp → List Cell → Prop
  | σ, .symbol s :: param :: next => Settable sc s ∧
      F sc (σ.pointIt (Val.ofSymbol σ s)) param ∧
      L .all (σ.pointIt (Val.ofSymbol σ s)) param ∧
      After (ev (σ.pointIt (Val.ofSymbol σ s)) param) fun v σ₁ =>
        SetfFollows sc (σ₁.clearIt.overwrite s v.cell) next
  | _, _ => True

def SetFollows (sc : Scope) : Interp → List Cell → Prop
  | σ, .quote (.symbol s) :: param :: next => Settable sc s ∧
      F sc σ param ∧ L .all σ param ∧ After (ev σ param) fun v σ₁ =>
        SetFollows sc (σ₁.assign s v.cell) next
  | _, _ => True

end Binding

section Arithmetic

variable (ev : Evaluator) (F : Scope → Interp → Cell → Prop)
  (L : Demand → Interp → Cell → Prop) (sc : Scope)

def OperandsFollow : Interp → List Cell → Prop
  | _, [] => True
  | σ, e :: es => F sc σ e ∧ L .all σ e ∧
      After (ev σ e) fun _ σ₁ => OperandsFollow σ₁ es

/-- `+` and `*` return a single operand as it is. -/
def SingleInt (σ : Interp) : List Cell → Prop
  | [e] => After (ev σ e) fun v _ => isInt v.cell = true
  | _ => True

/-- An increment of a bigint stays one. -/
def IncrementInt (σ : Interp) : List Cell → Prop
  | [.long n, e] => n = 1 → After (ev σ e) fun v _ => ∀ x, v.cell ≠ .bigint x
  | _ => True

/-- The first operand is still what it was when the second has been evaluated,
and no NaN is compared by `>` or `>=`. -/
def CompareFollows (rt : Runtime) (op : CompareOp) (σ : Interp) :
    List Cell → Prop
  | [e, e'] => After (ev σ e) fun v σ₁ => After (ev σ₁ e') fun w σ₂ =>
      v.deref σ₂ = .value v.cell ∧
      (op = .greater ∨ op = .greaterEqual →
        compareCells rt v.cell w.cell ≠ .value 9)
  | _ => True

end Arithmetic

section Loops

variable (ev : Evaluator) (F : Scope → Interp → Cell → Prop)
  (L : Demand → Interp → Cell → Prop)

/-- The rounds of a `while`, at most `fuel` of them. -/
def RoundsFollow (sc : Scope) (cellIdx : Nat) (cond : Cell)
    (body : List Cell) : Nat → Interp → Prop
  | 0, _ => True
  | fuel + 1, σ => F sc σ cond ∧ L .truth σ cond ∧
      After (ev σ cond) fun v σ₁ => isFalsy v.cell = false →
        BlockFollows ev F sc σ₁ body ∧
        After (evaluateBlock ev σ₁ body) fun _ σ₂ => ∀ σ₃,
          stepIteratorIndex σ₂ cellIdx = .value σ₃ →
            RoundsFollow sc cellIdx cond body fuel σ₃

def WhileFollows (sc : Scope) (fuel : Nat) (σ : Interp) : List Cell → Prop
  | cond :: body => RoundsFollow ev F L sc (σ.next + 1) cond body fuel
      (σ.bindNew listIdxSymbol (.long 0))
  | [] => True

/-- The machine does not evaluate a break condition: it must never hold, and
change nothing. -/
def BreakFollows (σ : Interp) (cond : Option Cell) (P : Interp → Prop) : Prop :=
  match cond with
  | none => P σ
  | some test => After (ev σ test) fun v σ₁ =>
      isNil v.cell = true ∧ (∀ s, σ₁.contents s = σ.contents s) ∧ P σ₁

/-- The rounds of a `dotimes` from the `i`-th on.  The machine counts in the loop
variable itself, so the body has to leave that alone. -/
def CountsFollow (sc : Scope) (symbol : Symbol) (cond : Option Cell)
    (block : List Cell) : Nat → Nat → Interp → Prop
  | 0, _, _ => True
  | count + 1, i, σ =>
      BreakFollows ev (σ.assign symbol (.long (BitVec.ofNat 64 i))) cond
        fun σ₁ => BlockFollows ev F sc σ₁ block ∧
          After (evaluateBlock ev σ₁ block) fun _ σ₂ =>
            σ₂.contents symbol = .long (BitVec.ofNat 64 i) ∧
            CountsFollow sc symbol cond block count (i + 1) σ₂

/-- The scope of the count and that of the body of a `dotimes`: the count has a
slot without a name. -/
def countScope (sc : Scope) (s : Symbol) : Scope :=
  ⟨sc.locals ++ [none], s :: sc.hidden⟩

def timesScope (sc : Scope) (s : Symbol) : Scope :=
  Scope.bound ⟨sc.locals ++ [none, some s], sc.hidden⟩ [s]

def DotimesFollows (sc : Scope) (σ : Interp) : List Cell → Prop
  | .expression (.symbol s :: count :: header) :: block =>
      F (countScope sc s) (σ.bindNil s) count ∧ L .all (σ.bindNil s) count ∧
      After (ev (σ.bindNil s) count) fun v σ₁ =>
        ∃ n, v.cell = .long n ∧
          CountsFollow ev F (timesScope sc s) s header.head? block
            n.toInt.toNat 0 σ₁
  | _ => True

end Loops

/-- The primitive a head symbol is compiled as. -/
def inlined (name : String) : Option Primitive :=
  [("if", .if_), ("when", .when), ("cond", .condition), ("and", .and),
    ("or", .or), ("begin", .evalBlock), ("while", .while_), ("let", .let_),
    ("local", .local_), ("dotimes", .dotimes), ("setq", .setf),
    ("set", .set), ("<", .less), (">", .greater), ("<=", .lessEqual),
    (">=", .greaterEqual), ("=", .equal), ("!=", .notEqual), ("+", .add),
    ("-", .subtract), ("*", .multiply), ("/", Primitive.divide)].lookup name

/-- The condition on one form. -/
def FormFollows (ev : Evaluator) (F : Scope → Interp → Cell → Prop)
    (L : Demand → Interp → Cell → Prop) (fuel : Nat) (p : Primitive)
    (sc : Scope) (σ : Interp) (args : List Cell) : Prop :=
  let rt := R.ctx.compile.runtime
  let flags := R.ctx.compile.flags
  match p with
  | .if_ => IfFollows ev F L sc σ args
  | .when => WhenFollows ev F L sc σ args
  | .condition => ClausesFollows ev F L sc false σ args
  | .and => AndFollows ev F L sc σ args
  | .or => OrFollows ev F L sc σ args
  | .evalBlock => BlockFollows ev F sc σ args
  | .while_ => WhileFollows ev F L sc fuel σ args
  | .dotimes => DotimesFollows ev F L sc σ args
  | .let_ => LetFollows ev F L flags sc σ args
  | .local_ => LocalFollows ev F flags sc σ args
  | .set => SetFollows ev F L sc σ args
  | .setf => SetfFollows ev F L sc σ args
  | .add => OperandsFollow ev F L sc σ args ∧ SingleInt ev σ args ∧
      IncrementInt ev σ args
  | .multiply => OperandsFollow ev F L sc σ args ∧ SingleInt ev σ args
  | .subtract | .divide => OperandsFollow ev F L sc σ args
  | .less => OperandsFollow ev F L sc σ args ∧ CompareFollows ev rt .less σ args
  | .greater => OperandsFollow ev F L sc σ args ∧
      CompareFollows ev rt .greater σ args
  | .lessEqual => OperandsFollow ev F L sc σ args ∧
      CompareFollows ev rt .lessEqual σ args
  | .greaterEqual => OperandsFollow ev F L sc σ args ∧
      CompareFollows ev rt .greaterEqual σ args
  | .equal => OperandsFollow ev F L sc σ args ∧
      CompareFollows ev rt .equal σ args
  | .notEqual => OperandsFollow ev F L sc σ args ∧
      CompareFollows ev rt .notEqual σ args
  | _ => False

/-- What a form leaves behind; most return what they compute. -/
def FormLeaves (ev : Evaluator) (L : Demand → Interp → Cell → Prop)
    (fuel : Nat) (p : Primitive) (d : Demand) (σ : Interp) (args : List Cell) :
    Prop :=
  let flags := R.ctx.compile.flags
  match p with
  | .if_ => IfLeaves ev L d σ args
  | .when => WhenLeaves ev L d σ args
  | .condition => ClausesLeaves ev L d True σ args
  | .and => AndLeaves ev L d σ args
  | .or => OrLeaves ev L d σ args
  | .evalBlock => BlockLeaves ev L d σ args
  -- the machine returns `nil` from a loop
  | .while_ => After (pWhile ev fuel σ args) fun v _ => d.Meets .nil v.cell
  | .dotimes => After (pDotimes R.ctx.compile.runtime ev flags σ args)
      fun v _ => d.Meets .nil v.cell
  | .let_ => LetLeaves ev L flags d σ args
  | .local_ => LocalLeaves ev L flags d σ args
  | _ => True

/-- The value the code of an expression leaves behind serves a demand. -/
def Leaves : Nat → Demand → Interp → Cell → Prop
  | 0, _, _, _ => True
  | fuel + 1, d, σ, .expression (.symbol h :: args) =>
      ∀ p, inlined h.name = some p →
        FormLeaves R (evaluateExpression R.ctx.compile false fuel)
          (Leaves fuel) fuel p d σ args
  | _ + 1, _, _, _ => True

/-- The code of an expression does what the tree-walker does on it, at most
`fuel` calls deep. -/
def Follows : Nat → Scope → Interp → Cell → Prop
  | 0, _, _, _ => True
  | fuel + 1, sc, σ, e =>
      match e with
      | .long n => n = 0 ∨ n = 1 ∨ n = 2 ∨ Pooled R (.long n)
      | .float x => Pooled R (.float x)
      | .string l => Pooled R (.string l)
      | .quote c => Pooled R c
      | .symbol s => Readable R sc σ s
      | .expression (.symbol h :: args) =>
          ∃ p, inlined h.name = some p ∧ σ.contents h = .primitive p ∧
            FormFollows R (evaluateExpression R.ctx.compile false fuel)
              (Follows fuel) (Leaves R fuel) fuel p sc σ args
      | .expression (_ :: _) => False
      | _ => True

end

end NewLispNeo
