/-
What the interpreter does to the memory of bytecode, step by step: making,
copying and deleting cells, the list primitives that edit in place, compiling,
calling and returning, and the symbol table.
-/
import NewLispNeo.BytecodeHeap

namespace NewLispNeo

namespace HeapCell

/-- The `aux` of a lambda cell. -/
def aux : HeapCell → Option Nat
  | .lambda aux _ => aux
  | _ => none

/-- The elements of a list, `isList(cell->type)`. -/
def elements : HeapCell → Option (List HeapCell)
  | .list .expression cs | .list .fexpr cs | .lambda _ cs => some cs
  | _ => none

/-- The same list with other elements, and with this `aux`. -/
def withElements (aux : Option Nat) (cs : List HeapCell) : HeapCell → HeapCell
  | .list type _ => .list type cs
  | .lambda _ _ => .lambda aux cs
  | c => c

/-- The cells that hang off a cell. -/
def children : HeapCell → List HeapCell
  | .atom _ => []
  | .quote c => [c]
  | .list _ cs | .lambda _ cs => cs

mutual

/-- `references(sPtr, TRUE)` on one cell: what refers to the symbol becomes
`nil`. -/
def unlink (s : Symbol) : HeapCell → HeapCell
  | .atom cell =>
      if s ∈ cell.val.symbols then .atom ⟨.symbol nilSymbol, rfl⟩
      else .atom cell
  | .quote c => .quote (unlink s c)
  | .list type cs => .list type (unlinkList s cs)
  | .lambda aux cs => .lambda aux (unlinkList s cs)

def unlinkList (s : Symbol) : List HeapCell → List HeapCell
  | [] => []
  | c :: cs => unlink s c :: unlinkList s cs

end

end HeapCell

/-- What the destructive primitives do to one list: reset its `aux` only, take an
element out (`pop`, `pop-assoc`), put a cell in (`push`, `extend`), turn it around
(`reverse`, `rotate`), put the elements into another order, given by where each
comes from (`sort`), replace or remove an element (`replace`), or overwrite the
cell itself (`setf`, also on a place found by `nth` or an index).  `pop-assoc`
resets the `aux` of the lists it looks into as well. -/
inductive ListEdit where
  | undo
  | pop
  | popAt (index : Nat)
  | popAssoc (index : Nat)
  | push (index : Nat)
  | pushLast
  | extend
  | reverse
  | rotate (count : Nat)
  | sort (order : List Nat)
  | replaceAt (index : Nat)
  | removeAt (index : Nat)
  | setf
deriving DecidableEq

/-- The list after an edit, the cells that come back as results, and those that
are deleted. -/
structure Edited where
  cell : HeapCell
  returned : List HeapCell
  deleted : List HeapCell

namespace ListEdit

/-- The primitive has evaluated and copied a cell that goes into the list. -/
def takesNew : ListEdit → Bool
  | .push _ | .pushLast | .extend | .replaceAt _ | .setf => true
  | _ => false

/-- The edit, on a list with the given elements.  With an object in `aux`,
`pushLast` and `extend` write through it as if it were the last element, so that
is undefined. -/
def applyList (new c : HeapCell) (cs : List HeapCell) : ListEdit → Option Edited
  | .undo => some ⟨c.withElements none cs, [], []⟩
  | .pop =>
      match cs with
      | [] => some ⟨c.withElements none [], [], []⟩
      | d :: ds =>
          some ⟨c.withElements (if ds = [] then none else c.aux) ds, [d], []⟩
  | .popAt index =>
      match cs[index]? with
      | none => none
      | some d =>
          some ⟨c.withElements (if cs.length = index + 1 then none else c.aux)
            (cs.eraseIdx index), [d], []⟩
  | .popAssoc index =>
      match cs[index]? with
      | none => none
      | some d => some ⟨c.withElements none (cs.eraseIdx index), [d], []⟩
  | .push index =>
      if index ≤ cs.length then
        some ⟨c.withElements none (cs.insertIdx index new), [], []⟩
      else none
  | .pushLast =>
      if c.aux = none then some ⟨c.withElements none (cs ++ [new]), [], []⟩
      else none
  | .extend =>
      match c.aux, new with
      | none, .list .expression ds =>
          some ⟨c.withElements none (cs ++ ds), [], []⟩
      | _, _ => none
  | .reverse => some ⟨c.withElements none cs.reverse, [], []⟩
  | .rotate count =>
      let index := cs.length - count
      some ⟨c.withElements none (cs.drop index ++ cs.take index), [], []⟩
  | .sort order =>
      if cs ≠ [] ∧ order.Perm (List.range cs.length) then
        some ⟨c.withElements none (order.filterMap (cs[·]?)), [], []⟩
      else none
  | .replaceAt index =>
      match cs[index]? with
      | none => none
      | some d => some ⟨c.withElements none (cs.set index new), [], [d]⟩
  | .removeAt index =>
      match cs[index]? with
      | none => none
      | some d => some ⟨c.withElements none (cs.eraseIdx index), [], [d]⟩
  | .setf => none

/-- The edit of a cell. -/
def apply (e : ListEdit) (new c : HeapCell) : Option Edited :=
  if e = .setf then some ⟨new, [], c.children⟩
  else c.elements.bind fun cs => e.applyList new c cs

/-- The edit overwrites the `aux` of a list with these elements. -/
def resets (cs : List HeapCell) : ListEdit → Bool
  | .pop => cs.length ≤ 1
  | .popAt index => cs.length = index + 1
  | _ => true

/-- The edit overwrites the `aux` of a cell. -/
def overwrites (e : ListEdit) (c : HeapCell) : Bool :=
  e = .setf || (c.elements.map e.resets).getD false

end ListEdit

namespace Heap

/-- The cell at a path in the cell number `i`. -/
def cellAt (h : Heap) (i : Nat) (path : List Nat) : Option HeapCell :=
  h.cells[i]?.bind fun held => held.2.at_ path

/-- Write over it. -/
def put (h : Heap) (i : Nat) (path : List Nat) (new : HeapCell) : Heap :=
  { h with cells :=
      h.cells.modify i fun held => (held.1, HeapCell.put new path held.2) }

def push (h : Heap) (cs : List HeapCell) : Heap :=
  { h with cells := h.cells ++ cs.map fun c => (none, c) }

/-- The cell made last, for the list it goes into. -/
def takeLast (h : Heap) : Option (HeapCell × Heap) :=
  match h.cells.getLast? with
  | some (none, c) => some (c, { h with cells := h.cells.dropLast })
  | _ => none

/-- A list primitive up to its `deleteList`. -/
def editList (h : Heap) (i : Nat) (path : List Nat) (e : ListEdit) :
    Option (Heap × List HeapCell) := do
  let (new, h) ←
    if e.takesNew then h.takeLast else some (.atom ⟨.nil, not_isEnvelope_nil⟩, h)
  let c ← h.cellAt i path
  let r ← e.apply new c
  some ((h.put i path r.cell).push r.returned, r.deleted)

/-- `p_swap` up to its result: the two cells exchange their contents and `aux`.  A
cell exchanged with itself stays, and one exchanged with a cell inside it would
make a ring. -/
def swap (h : Heap) (i : Nat) (path : List Nat) (j : Nat) (path' : List Nat) :
    Option Heap := do
  let c ← h.cellAt i path
  let d ← h.cellAt j path'
  if i = j ∧ (h.cells[i]?.map (·.2.apart path path')).getD false = false then none
  else some ((h.put i path d).put j path' c)

/-- `compileLambda` on a lambda cell and `aux` set to what it returns. -/
def compile (h : Heap) (i : Nat) (path : List Nat) (selfSymbol : Option Symbol)
    (cs : List HeapCell) : Heap :=
  match compileLambda { h.context with selfSymbol := selfSymbol }
      (HeapCell.plainList cs) with
  | .value bc =>
      let b := h.objects.length
      let h := h.put i path (.lambda (some b) cs)
      { h with
        objects := h.objects ++ [⟨bc, 1, true⟩]
        cells := h.cells ++
          bc.constants.map fun c => (some b, HeapCell.ofCell c) }
  | _ => h

/-- The object a call of a cell runs. -/
def target (h : Heap) (i : Nat) (path : List Nat) : Option Nat :=
  (h.cellAt i path).bind fun c => h.bytecodeOf c.aux

/-- The cell number `i`, if it is no constant. -/
def free (h : Heap) (i : Nat) : Option HeapCell :=
  match h.cells[i]? with
  | some (none, c) => some c
  | _ => none

def erase (h : Heap) (i : Nat) : Heap := { h with cells := h.cells.eraseIdx i }

/-- A step of the interpreter.  `collect` is the end of a nursery that an
unreachable cell is in; `enter` is the frame of `executeBytecode`, `OP_CALL` or
`OP_CALL_SELF`, `tailCall` that of `OP_TAIL_CALL`, `leave` is `OP_RET`; `redefine`
is any change of what the compiler reads of the symbols. -/
inductive Action where
  | intern (s : Symbol)
  | create (c : Cell)
  | copy (i : Nat) (path : List Nat)
  | delete (i : Nat)
  | collect (i : Nat)
  | compile (i : Nat) (path : List Nat) (selfSymbol : Option Symbol)
  | edit (i : Nat) (path : List Nat) (e : ListEdit)
  | swap (i : Nat) (path : List Nat) (j : Nat) (path' : List Nat)
  | enter (i : Nat) (path : List Nat)
  | tailCall (i : Nat) (path : List Nat)
  | leave
  | deleteSymbol (s : Symbol)
  | redefine (context : CompileContext)

def step (h : Heap) : Action → Option Heap
  | .intern s => some { h with symbols := s :: h.symbols }
  | .create c =>
      if ∀ s ∈ c.symbols, s ∈ h.symbols then some (h.push [HeapCell.ofCell c])
      else none
  | .copy i path => do
      let c ← h.cellAt i path
      let (c, h) := h.copyCell c
      some (h.push [c])
  | .delete i => do
      let c ← h.free i
      some ((h.erase i).deleteList [c])
  | .collect i => do
      let _ ← h.free i
      some (h.erase i)
  | .compile i path selfSymbol =>
      match h.cellAt i path with
      | some (.lambda aux cs) =>
          if h.bytecodeOf aux = none then some (h.compile i path selfSymbol cs)
          else none
      | _ => none
  | .edit i path e => do
      let (h, deleted) ← h.editList i path e
      some (h.deleteList deleted)
  | .swap i path j path' => h.swap i path j path'
  | .enter i path => do
      let b ← h.target i path
      some { h with frames := b :: h.frames }
  | .tailCall i path => do
      let b ← h.target i path
      match h.frames with
      | [] => none
      | _ :: frames => some { h with frames := b :: frames }
  | .leave =>
      match h.frames with
      | [] => none
      | _ :: frames => some { h with frames := frames }
  | .deleteSymbol s =>
      if s = nilSymbol then none
      else
        some { h with
          cells := h.cells.map fun held => (held.1, held.2.unlink s)
          symbols := h.symbols.filter (· ≠ s) }
  | .redefine context => some { h with context := context }

/-- The memory of an interpreter that has made nothing yet. -/
def start (context : CompileContext) (symbols : List Symbol) : Heap :=
  { context := context
    objects := []
    cells := []
    frames := []
    symbols := nilSymbol :: symbols }

/-- A run whose steps all meet a condition. -/
inductive Run (ok : Heap → Action → Prop) (h₀ : Heap) : Heap → Prop where
  | start : Run ok h₀ h₀
  | step {h h' : Heap} {a : Action} (hrun : Run ok h₀ h) (hok : ok h a)
      (hstep : h.step a = some h') : Run ok h₀ h'

end Heap

end NewLispNeo
