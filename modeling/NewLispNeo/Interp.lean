/-
The state of the tree-walking evaluator: the cell each symbol holds and the
results of an evaluation, which may be the very cell of a symbol.
-/
import NewLispNeo.Compare

namespace NewLispNeo

/-- What `symbol->contents` points to.  `id` names the cell: a cell of the
symbol's own has a positive one, `0` is the shared `nilCell`. -/
structure Binding where
  val : Cell
  id : Nat

/-- The symbol table and the supply of fresh cell names.  `$it` points to cells
it does not own; `itFreed` says that the one it points to has been freed. -/
structure Interp where
  bind : Symbol → Binding
  next : Nat
  itFreed : Bool

/-- `symbol->flags`. -/
abbrev SymbolFlags := Symbol → Nat

def symbolProtected : Nat := 0x10
def symbolMacro : Nat := 0x200
def symbolDestructive : Nat := 0x400

/-- `isProtected(symbol->flags)`. -/
def isProtected (flags : SymbolFlags) (s : Symbol) : Bool :=
  flags s &&& (symbolProtected ||| symbolMacro) ≠ 0

namespace Interp

def contents (σ : Interp) (s : Symbol) : Cell := (σ.bind s).val

def setBind (σ : Interp) (s : Symbol) (b : Binding) : Interp :=
  { σ with bind := fun t => if t = s then b else σ.bind t }

/-- Point `s` to a new cell with the given contents. -/
def bindNew (σ : Interp) (s : Symbol) (c : Cell) : Interp :=
  { (σ.setBind s ⟨c, σ.next + 1⟩) with next := σ.next + 1 }

/-- Point `s` to `nilCell`. -/
def bindNil (σ : Interp) (s : Symbol) : Interp :=
  σ.setBind s ⟨.nil, 0⟩

/-- `$it` points to the very cell of `s`. -/
def itIs (σ : Interp) (s : Symbol) : Prop :=
  (σ.bind s).id ≠ 0 ∧ (σ.bind itSymbol).id = (σ.bind s).id

instance (σ : Interp) (s : Symbol) : Decidable (σ.itIs s) := by
  unfold itIs; infer_instance

/-- Overwrite the cell `s` points to; `$it` sees it when it points there too. -/
def overwrite (σ : Interp) (s : Symbol) (c : Cell) : Interp :=
  let σ' := σ.setBind s ⟨c, (σ.bind s).id⟩
  if σ.itIs s then σ'.setBind itSymbol ⟨c, (σ.bind s).id⟩ else σ'

/-- `deleteList(symbol->contents)` followed by a new cell for the symbol. -/
def assign (σ : Interp) (s : Symbol) (c : Cell) : Interp :=
  { σ.bindNew s c with itFreed := if σ.itIs s then true else σ.itFreed }

@[simp] theorem setBind_bind_self (σ : Interp) (s : Symbol) (b : Binding) :
    (σ.setBind s b).bind s = b := by simp [setBind]

theorem setBind_bind_ne (σ : Interp) {s t : Symbol} (b : Binding)
    (h : t ≠ s) : (σ.setBind s b).bind t = σ.bind t := by simp [setBind, h]

@[simp] theorem setBind_contents_self (σ : Interp) (s : Symbol)
    (b : Binding) : (σ.setBind s b).contents s = b.val := by
  simp [contents]

theorem setBind_contents_ne (σ : Interp) {s t : Symbol} (b : Binding)
    (h : t ≠ s) : (σ.setBind s b).contents t = σ.contents t := by
  simp [contents, setBind_bind_ne, h]

@[simp] theorem bindNew_contents_self (σ : Interp) (s : Symbol) (c : Cell) :
    (σ.bindNew s c).contents s = c := by simp [bindNew, contents, setBind]

theorem bindNew_contents_ne (σ : Interp) {s t : Symbol} (c : Cell)
    (h : t ≠ s) : (σ.bindNew s c).contents t = σ.contents t := by
  simp [bindNew, contents, setBind, h]

@[simp] theorem assign_contents_self (σ : Interp) (s : Symbol) (c : Cell) :
    (σ.assign s c).contents s = c := by simp [assign, bindNew, contents, setBind]

theorem assign_contents_ne (σ : Interp) {s t : Symbol} (c : Cell)
    (h : t ≠ s) : (σ.assign s c).contents t = σ.contents t := by
  simp [assign, bindNew, contents, setBind, h]

@[simp] theorem overwrite_contents_self (σ : Interp) (s : Symbol)
    (c : Cell) : (σ.overwrite s c).contents s = c := by
  unfold overwrite
  by_cases hs : s = itSymbol
  · subst hs; split <;> simp
  · split
    · simp [setBind_contents_ne _ _ hs]
    · simp

theorem overwrite_contents_ne (σ : Interp) {s t : Symbol} (c : Cell)
    (hs : t ≠ s) (hit : t ≠ itSymbol) :
    (σ.overwrite s c).contents t = σ.contents t := by
  unfold overwrite
  split
  · rw [setBind_contents_ne _ _ hit, setBind_contents_ne _ _ hs]
  · rw [setBind_contents_ne _ _ hs]

@[simp] theorem bindNil_contents_self (σ : Interp) (s : Symbol) :
    (σ.bindNil s).contents s = .nil := by simp [bindNil]

theorem bindNil_contents_ne (σ : Interp) {s t : Symbol} (h : t ≠ s) :
    (σ.bindNil s).contents t = σ.contents t := setBind_contents_ne _ _ h

end Interp

/-- Where the cell returned by `evaluateExpression` lives: in a cell of its own,
in the shared `nilCell` or `trueCell`, or in the cell a symbol points to. -/
inductive Source where
  | temp
  | shared
  | symbol (s : Symbol) (id : Nat)

/-- The result of `evaluateExpression`: its contents now, and where it lives. -/
structure Val where
  cell : Cell
  src : Source

namespace Val

def temp (c : Cell) : Val := ⟨c, .temp⟩

/-- `nilCell` itself. -/
def nilCell : Val := ⟨.nil, .shared⟩

/-- `nilCell` or `trueCell`. -/
def shared (c : Cell) : Val := ⟨c, .shared⟩

/-- The cell `s` points to. -/
def ofSymbol (σ : Interp) (s : Symbol) : Val :=
  ⟨σ.contents s, if (σ.bind s).id = 0 then .shared
    else .symbol s (σ.bind s).id⟩

/-- What a saved pointer reads later: a symbol's cell may have been overwritten
since, and it dangles when the symbol has got another cell. -/
def deref (v : Val) (σ : Interp) : Outcome Error Cell :=
  match v.src with
  | .temp => .value v.cell
  | .shared => .value v.cell
  | .symbol s id =>
      if (σ.bind s).id = id then .value (σ.contents s) else .undefined

/-- `cell == nilCell`. -/
def isNilCell (v : Val) : Bool :=
  match v with
  | ⟨.nil, .shared⟩ => true
  | _ => false

@[simp] theorem temp_cell (c : Cell) : (temp c).cell = c := rfl

@[simp] theorem temp_deref (c : Cell) (σ : Interp) :
    (temp c).deref σ = .value c := rfl

@[simp] theorem nilCell_cell : nilCell.cell = .nil := rfl

@[simp] theorem shared_cell (c : Cell) : (shared c).cell = c := rfl

@[simp] theorem ofSymbol_cell (σ : Interp) (s : Symbol) :
    (ofSymbol σ s).cell = σ.contents s := rfl

@[simp] theorem temp_isNilCell (c : Cell) : (temp c).isNilCell = false := by
  cases c <;> rfl

end Val

/-- `errorProcArgs`: a failed conversion of the shared `nilCell` counts as a
missing argument. -/
def errorProcArgs {α : Type} (v : Val) (x : Outcome Error α) :
    Outcome Error α :=
  match x with
  | .error .numberExpected =>
      if v.isNilCell then .error .missingArgument else .error .numberExpected
  | x => x

/-- `itSymbol->contents = cell`. -/
def Interp.pointIt (σ : Interp) (v : Val) : Interp :=
  match v.src with
  | .temp => { σ.bindNew itSymbol v.cell with itFreed := false }
  | .shared => { σ.setBind itSymbol ⟨v.cell, 0⟩ with itFreed := false }
  | .symbol _ id => { σ.setBind itSymbol ⟨v.cell, id⟩ with itFreed := false }

/-- `itSymbol->contents = nilCell`. -/
def Interp.clearIt (σ : Interp) : Interp :=
  { σ.bindNil itSymbol with itFreed := false }

namespace Interp

@[simp] theorem pointIt_contents_it (σ : Interp) (v : Val) :
    (σ.pointIt v).contents itSymbol = v.cell := by
  rcases v with ⟨c, _ | _ | _⟩ <;> simp [pointIt, contents, bindNew]

theorem pointIt_contents_ne (σ : Interp) (v : Val) {t : Symbol}
    (h : t ≠ itSymbol) : (σ.pointIt v).contents t = σ.contents t := by
  rcases v with ⟨c, _ | _ | _⟩ <;>
    simp [pointIt, contents, bindNew, setBind, h]

@[simp] theorem pointIt_itFreed (σ : Interp) (v : Val) :
    (σ.pointIt v).itFreed = false := by
  rcases v with ⟨c, _ | _ | _⟩ <;> rfl

@[simp] theorem clearIt_contents_it (σ : Interp) :
    σ.clearIt.contents itSymbol = .nil := by simp [clearIt, contents, bindNil]

theorem clearIt_contents_ne (σ : Interp) {t : Symbol} (h : t ≠ itSymbol) :
    σ.clearIt.contents t = σ.contents t := by
  simp [clearIt, contents, bindNil, setBind, h]

end Interp

/-- The value of a symbol, unless its cell has been freed under it. -/
def evaluateSymbol (σ : Interp) (s : Symbol) : Outcome Error Val :=
  if s = itSymbol ∧ σ.itFreed = true then .undefined
  else .value (Val.ofSymbol σ s)

/-- An evaluator of expressions: `evaluateExpression` with its fuel fixed. -/
abbrev Evaluator := Interp → Cell → Outcome Error (Val × Interp)

end NewLispNeo
