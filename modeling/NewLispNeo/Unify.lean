/-
`unify` of nl-math.c: the global working set `ws` and most general unifier `mgu`, the
loop over the pairs, and the places where an error leaves them.
-/
import NewLispNeo.Arith

namespace NewLispNeo

namespace Unify

/-- What an error of `unify` can be: an error of the cells compared, or a dynamic symbol
whose context is none. -/
inductive UnifyError where
  | raised (e : Error)
  | contextExpected
deriving DecidableEq

/-- A `TERMSET`, latest first. -/
abbrev TermSet := List (Cell × Cell)

/-- The globals `ws` and `mgu`. -/
structure Sets where
  ws : TermSet
  mgu : TermSet

namespace Sets

def empty : Sets := ⟨[], []⟩

/-- `pushSet(&ws, left, right)`. -/
def pushWs (s : Sets) (left right : Cell) : Sets := { s with ws := (left, right) :: s.ws }

/-- `pushSet(&mgu, left, right)`. -/
def pushMgu (s : Sets) (left right : Cell) : Sets := { s with mgu := (left, right) :: s.mgu }

end Sets

/-- Code that reads and writes the globals; an error leaves them as they are then. -/
def Unifying (α : Type) : Type := Sets → Outcome UnifyError α × Sets

namespace Unifying

variable {α β : Type}

def bind (m : Unifying α) (f : α → Unifying β) : Unifying β := fun s =>
  match m s with
  | (.value a, s') => f a s'
  | (.error e, s') => (.error e, s')
  | (.undefined, s') => (.undefined, s')
  | (.timeout, s') => (.timeout, s')

instance : Monad Unifying where
  pure a := fun s => (.value a, s)
  bind := Unifying.bind

/-- Code that does not look at the globals. -/
def lift (x : Outcome UnifyError α) : Unifying α := fun s => (x, s)

end Unifying

/-- What a cell has in its `contents` word.  A block of memory is no other cell's. -/
inductive Contents where
  | word (w : Word)
  | nilCell
  | trueCell
  | block
deriving DecidableEq

/-- What `unify` reads of the interpreter: the values of symbols and their flags. -/
structure World where
  rt : Runtime
  values : Symbol → Cell
  flags : Symbol → Nat

inductive UnifyType where
  | atom | list | var | any
deriving DecidableEq

variable (w : World)

def contentsOf : Cell → Contents
  | .nil => .nilCell
  | .true_ => .trueCell
  | .long n => .word n
  | .float x => .word x.bits
  | .symbol s => .word (w.rt.symbolAddress s)
  | .context s => .word (w.rt.symbolAddress s)
  | .primitive p => .word (w.rt.functionAddress p)
  | .expression [] | .lambda _ [] | .fexpr [] => .nilCell
  | _ => .block

/-- `left->contents == right->contents`. -/
def sameContents (left right : Cell) : Bool :=
  contentsOf w left ≠ .block && contentsOf w left = contentsOf w right

/-- The name of a symbol in `unifyGetType`. -/
def nameType (name : String) : UnifyType :=
  if name = "_" then .any
  else
    match name.toList with
    | c :: _ => if 64 < c.toNat ∧ c.toNat < 91 then .var else .atom
    | [] => .atom

def unifyGetType : Cell → Outcome UnifyError UnifyType
  | .symbol s => .value (nameType s.name)
  | .dynSymbol context name =>
      -- `getDynamicSymbol`
      match w.values context with
      | .context _ => .value (nameType name)
      | _ => .error .contextExpected
  | .expression _ | .lambda _ _ | .fexpr _ => .value .list
  | _ => .value .atom

/-- `isEnvelope(cell->type)`. -/
def isEnvelope : Cell → Bool
  | .quote _ | .expression _ | .lambda _ _ | .fexpr _ | .array _ => true
  | _ => false

mutual

/-- `occurCheck`.  The memory of an array is no list of cells. -/
def occurCheck (symCell : Cell) : Cell → Outcome UnifyError Bool
  | .quote cell =>
      if sameContents w symCell cell then .value true
      else if isEnvelope cell then occurCheck symCell cell
      else .value false
  | .expression cells => occurCheckList symCell cells
  | .lambda _ cells => occurCheckList symCell cells
  | .fexpr cells => occurCheckList symCell cells
  | .array _ => .undefined
  | expr => .value (sameContents w symCell expr)

def occurCheckList (symCell : Cell) : List Cell → Outcome UnifyError Bool
  | [] => .value false
  | cell :: cells =>
      if sameContents w symCell cell then .value true
      else if isEnvelope cell then do
        if ← occurCheck symCell cell then .value true else occurCheckList symCell cells
      else occurCheckList symCell cells

end

mutual

/-- `expand(expr, symbol)`, where the symbol holds `rep`. -/
def expand (symbol : Symbol) (rep : Cell) : Cell → Cell
  | .symbol s => if s = symbol then rep else .symbol s
  | .quote cell => .quote (expand symbol rep cell)
  | .expression cells => .expression (expandList symbol rep cells)
  | .lambda self cells => .lambda self (expandList symbol rep cells)
  | .fexpr cells => .fexpr (expandList symbol rep cells)
  | cell => cell

def expandList (symbol : Symbol) (rep : Cell) : List Cell → List Cell
  | [] => []
  | cell :: cells => expand symbol rep cell :: expandList symbol rep cells

end

def isQuote : Cell → Bool
  | .quote _ => true
  | _ => false

/-- `subsym` for a cell of type `CELL_SYMBOL`. -/
def subsym (expr : Cell) (sym : Symbol) (cell : Cell) : Cell :=
  if isList cell || isQuote cell then expand sym expr cell
  else if sameContents w (.symbol sym) cell then expr
  else cell

def substitute (expr : Cell) (sym : Symbol) (tset : TermSet) : TermSet :=
  tset.map fun pair => (subsym w expr sym pair.1, subsym w expr sym pair.2)

/-- A variable and its term go to `mgu`, substituted before in both sets.  A dynamic symbol
is taken for a `SYMBOL` there, unless both sets are empty. -/
def bindVariable (sym expr : Cell) (s : Sets) : Outcome UnifyError Sets :=
  match sym with
  | .symbol x =>
      .value (Sets.pushMgu ⟨substitute w expr x s.ws, substitute w expr x s.mgu⟩ sym expr)
  | _ =>
      match s.ws, s.mgu with
      | [], [] => .value (s.pushMgu sym expr)
      | _, _ => .undefined

/-- `!occurCheck`, for a variable only. -/
def canBind (type : UnifyType) (sym expr : Cell) : Outcome UnifyError Bool :=
  if type = .var then do return !(← occurCheck w sym expr) else .value false

/-- The lists in one pass of the loop: their elements are pushed in pairs, when there are
as many of them. -/
def unifyLists (left right : List Cell) (s : Sets) : Option Sets :=
  if left.length = right.length then
    some { s with ws := (left.zip right).reverse ++ s.ws }
  else none

def listOf : Cell → List Cell
  | .expression cells | .lambda _ cells | .fexpr cells => cells
  | _ => []

/-- The pass of the loop in `unify` behind the comparison: a variable is bound or lists are
taken apart; `none` goes to `finishUnify(nilCell)`. -/
def unifyTerms (leftType rightType : UnifyType) (left right : Cell) (s : Sets) :
    Outcome UnifyError (Option Sets) := do
  if ← canBind w leftType left right then
    return some (← bindVariable w left right s)
  else if ← canBind w rightType right left then
    return some (← bindVariable w right left s)
  else if leftType = .list ∧ rightType = .list then
    .value (unifyLists (listOf left) (listOf right) s)
  else
    .value none

/-- `compareCells(left, right) == 0`. -/
def sameCells (left right : Cell) : Outcome UnifyError Bool :=
  match compareCells w.rt left right with
  | .value comp => .value (comp = 0)
  | .error e => .error (.raised e)
  | .undefined => .undefined
  | .timeout => .timeout

/-- One pass of the loop in `unify` over a pair popped from `ws`. -/
def unifyPair (left right : Cell) (s : Sets) : Outcome UnifyError (Option Sets) := do
  let leftType ← unifyGetType w left
  let rightType ← unifyGetType w right
  if leftType = .any ∨ rightType = .any then
    .value (some s)
  else if (leftType = .atom ∧ rightType = .atom) ∨ sameContents w left right then
    if ← sameCells w left right then .value (some s) else .value none
  else
    unifyTerms w leftType rightType left right s

/-- The association list of the bound variables. -/
def association (mgu : TermSet) : Cell :=
  .expression (mgu.map fun pair => .expression [pair.1, pair.2])

/-- The loop of `finishUnify` that sets the variables, to the first protected one: the reply
and what is left of `mgu`. -/
def bindSymbols : TermSet → Outcome UnifyError Cell × TermSet
  | [] => (.value (.expression []), [])
  | (.symbol s, _) :: mgu =>
      if isProtected w.flags s then (.error (.raised .symbolProtected), mgu)
      else bindSymbols mgu
  | _ :: mgu => (.undefined, mgu)

/-- `finishUnify(trueCell)`. -/
def finishUnify (bindFlag : Bool) : Unifying Cell := fun s =>
  if bindFlag then
    match bindSymbols w s.mgu with
    | (.value cell, _) => (.value cell, Sets.empty)
    | (reply, mgu) => (reply, { s with mgu := mgu })
  else (.value (association s.mgu), Sets.empty)

/-- The loop of `unify`. -/
def unifyLoop (bindFlag : Bool) : Nat → Unifying Cell
  | 0 => fun s => (.timeout, s)
  | fuel + 1 => fun s =>
      match s.ws with
      | [] => finishUnify w bindFlag s
      | (left, right) :: ws =>
          match unifyPair w left right { s with ws := ws } with
          | .value (some s') => unifyLoop bindFlag fuel s'
          | .value none => (.value .nil, Sets.empty)
          | .error e => (.error e, { s with ws := ws })
          | .undefined => (.undefined, { s with ws := ws })
          | .timeout => (.timeout, { s with ws := ws })

def unify (bindFlag : Bool) (fuel : Nat) (left right : Cell) : Unifying Cell := fun s =>
  unifyLoop w bindFlag fuel (s.pushWs left right)

/-- A context stands for what its default functor holds. -/
def heldBy : Cell → Cell
  | .context s => w.values ⟨s.name, s.name⟩
  | cell => cell

/-- `getListHead`. -/
def listHead (cell : Cell) : Outcome UnifyError (List Cell) :=
  if isList (heldBy w cell) then .value (listOf (heldBy w cell))
  else .error (.raised .listExpected)

/-- The loop of `p_unify` over the environment list. -/
def pushEnvironmentList : List Cell → Unifying Unit
  | [] => pure ()
  | .expression entry :: entries => fun s =>
      pushEnvironmentList entries
        (s.pushWs (entry.getD 0 .nil) (entry.getD 1 .nil))
  | _ :: _ => Unifying.lift (.error (.raised .listExpected))

/-- `p_unify`, with the evaluation of its arguments.  Without an environment it is that of
the empty list, and without a flag that of `nil`. -/
def p_unify (fuel : Nat) (left right env flag : Unifying Cell) : Unifying Cell := do
  let leftCell ← left
  let rightCell ← right
  let envCell ← env
  let entries ← Unifying.lift (listHead w envCell)
  pushEnvironmentList entries
  let bindFlag ← flag
  unify w (!isNil bindFlag) fuel leftCell rightCell

end Unify

end NewLispNeo
