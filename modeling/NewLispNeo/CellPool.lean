/-
Cells in memory, linked by their `next` pointers: what the list functions read
and write of the cells that they cut out, insert and link in another order.
-/
import NewLispNeo.Cell
import NewLispNeo.Chains

namespace NewLispNeo

open Linked (Chain)

/-- The number of a cell.  A `CELL` takes 32 bytes of the 64-bit addresses, which
leaves `2 ^ 59` numbers. -/
abbrev Address := Fin 0x800000000000000

theorem addresses_ne_zero : 0x800000000000000 ≠ 0 := by decide

instance neZero_addresses : NeZero 0x800000000000000 := ⟨addresses_ne_zero⟩

def nilCell : Address := 0

/-- The types with the bit `LIST_TYPE_MASK`. -/
inductive ListKind where
  | expression | lambda | fexpr
deriving DecidableEq

/-- A string and the zero byte that ends it fit into one object. -/
structure CellString where
  bytes : List UInt8
  fits : bytes.length + 1 < 2 ^ 63

/-- The type and the `contents` of a cell; `α` is what other cells than lists and
strings hold. -/
inductive CellContents (α : Type) where
  | list (kind : ListKind) (first : Address)
  | string (string : CellString)
  | other (contents : α)

/-- The fields of all cells. -/
structure CellPool (α : Type) where
  contents : Address → CellContents α
  aux : Address → Address
  next : Address → Address

/-- The errors that the list and string functions raise. -/
inductive ListError where
  | symbolProtected | listExpected | listOrStringExpected
  | arrayListOrStringExpected | listOrArrayExpected | illegalType | listIndexInvalid
  | stringIndexInvalid | arrayIndexOutOfBounds | notEnoughMemory
deriving DecidableEq

namespace CellPool

variable {α : Type}

def setContents (pool : CellPool α) (cell : Address)
    (contents : CellContents α) : CellPool α :=
  { pool with contents := Function.update pool.contents cell contents }

def setAux (pool : CellPool α) (cell aux : Address) : CellPool α :=
  { pool with aux := Function.update pool.aux cell aux }

def setNext (pool : CellPool α) (cell next : Address) : CellPool α :=
  { pool with next := Function.update pool.next cell next }

variable (pool : CellPool α) (cell a : Address) (c : CellContents α)

@[simp] theorem contents_setContents : (pool.setContents cell c).contents =
    Function.update pool.contents cell c := rfl

@[simp] theorem aux_setContents : (pool.setContents cell c).aux = pool.aux := rfl

@[simp] theorem next_setContents : (pool.setContents cell c).next = pool.next :=
  rfl

@[simp] theorem contents_setAux : (pool.setAux cell a).contents = pool.contents :=
  rfl

@[simp] theorem aux_setAux :
    (pool.setAux cell a).aux = Function.update pool.aux cell a := rfl

@[simp] theorem next_setAux : (pool.setAux cell a).next = pool.next := rfl

@[simp] theorem contents_setNext :
    (pool.setNext cell a).contents = pool.contents := rfl

@[simp] theorem aux_setNext : (pool.setNext cell a).aux = pool.aux := rfl

@[simp] theorem next_setNext :
    (pool.setNext cell a).next = Function.update pool.next cell a := rfl

/-- The cell is a list of the cells `cells` and none of them. -/
structure IsListOf (pool : CellPool α) (list : Address) (kind : ListKind)
    (cells : List Address) : Prop where
  contents : ∃ first, pool.contents list = .list kind first ∧
    Chain pool.next nilCell first cells
  notMem : list ∉ cells

end CellPool

end NewLispNeo
