/-
The symbols in a collection of the nursery: `gcEvacuate`, `gcWalkSymbolTree` and the
part of `collectGen0` that walks the contexts.
-/
import NewLispNeo.TreeLinks
import NewLispNeo.BoundedWalk

namespace NewLispNeo

open RedBlack

/-- A cell by what the collection reads of it.  `gen0` is true in the nursery.  A cell of
the nursery that has been moved is `forward` (`CELL_FORWARD`), with its copy. -/
inductive GcCell where
  | atom (gen0 : Bool)
  | context (gen0 : Bool) (symbol aux : Nat)
  | list (gen0 : Bool) (elements : List GcCell)
  | array (gen0 : Bool) (elements : List GcCell)
  | forward (copy : GcCell)

namespace GcCell

/-- `isInGen0`. -/
def gen0 : GcCell → Bool
  | atom g => g
  | context g _ _ => g
  | list g _ => g
  | array g _ => g
  | forward _ => true

def isForward : GcCell → Bool
  | forward _ => true
  | _ => false

mutual

/-- The copy of a cell of the nursery, where `allocGen1Cell` has made it outside. -/
def copyOut : GcCell → GcCell
  | atom _ => atom false
  | context _ symbol aux => context false symbol aux
  | list _ elements => list false (evacuateList elements)
  | array _ elements => array false (evacuateSlots elements)
  | forward copy => copy

/-- `gcEvacuate` of the first cell of a list: it goes on to the first cell that is not
in the nursery, or has been moved. -/
def evacuateList : List GcCell → List GcCell
  | [] => []
  | cell :: rest =>
      if cell.gen0 then cell.copyOut :: if cell.isForward then rest else evacuateList rest
      else cell :: rest

/-- `gcEvacuate` of every element of an array. -/
def evacuateSlots : List GcCell → List GcCell
  | [] => []
  | cell :: rest => (if cell.gen0 then cell.copyOut else cell) :: evacuateSlots rest

end

/-- `gcEvacuate` of a cell alone. -/
def gcEvacuate (cell : GcCell) : GcCell := if cell.gen0 then cell.copyOut else cell

mutual

/-- How many cells `gcEvacuate` takes from `allocGen1Cell`. -/
def taken : GcCell → Nat
  | atom g => g.toNat
  | context g _ _ => g.toNat
  | list g elements => if g then takenList elements + 1 else 0
  | array g elements => if g then takenSlots elements + 1 else 0
  | forward _ => 0

def takenList : List GcCell → Nat
  | [] => 0
  | cell :: rest =>
      if cell.gen0 && !cell.isForward then cell.taken + takenList rest else 0

def takenSlots : List GcCell → Nat
  | [] => 0
  | cell :: rest => cell.taken + takenSlots rest

end

mutual

/-- The contexts a cell refers to, at any depth. -/
def contexts : GcCell → List Nat
  | atom _ => []
  | context _ symbol _ => [symbol]
  | list _ elements => contextsList elements
  | array _ elements => contextsList elements
  | forward copy => copy.contexts

def contextsList : List GcCell → List Nat
  | [] => []
  | cell :: rest => cell.contexts ++ contextsList rest

end

/-- The context of a context cell, and the root it has for its tree. -/
def link : GcCell → Option (Nat × Option Nat)
  | context _ symbol aux => some (symbol, some aux)
  | forward copy => copy.link
  | _ => none

mutual

/-- No cell at any depth lies in the nursery. -/
def nurseryFree : GcCell → Bool
  | atom g => !g
  | context g _ _ => !g
  | list g elements => !g && nurseryFreeAll elements
  | array g elements => !g && nurseryFreeAll elements
  | forward _ => false

def nurseryFreeAll : List GcCell → Bool
  | [] => true
  | cell :: rest => cell.nurseryFree && nurseryFreeAll rest

end

mutual

/-- The cells in the nursery hang together from the top, as `gcEvacuate` follows them: an
envelope outside the nursery, and a list from its first such cell or moved cell on, have
none. -/
def hangs : GcCell → Bool
  | atom _ => true
  | context .. => true
  | list g elements => if g then hangsList elements else nurseryFreeAll elements
  | array g elements => if g then hangsSlots elements else nurseryFreeAll elements
  | forward copy => copy.nurseryFree

def hangsList : List GcCell → Bool
  | [] => true
  | cell :: rest =>
      cell.hangs &&
        if cell.gen0 && !cell.isForward then hangsList rest else nurseryFreeAll rest

def hangsSlots : List GcCell → Bool
  | [] => true
  | cell :: rest => cell.hangs && hangsSlots rest

end

theorem nurseryFree_of_gen0 {cell : GcCell} (h : cell.gen0 = false) :
    cell.nurseryFree = cell.hangs := by
  cases cell <;> simp_all [gen0, nurseryFree, hangs]

theorem gen0_of_nurseryFree {cell : GcCell} (h : cell.nurseryFree = true) :
    cell.gen0 = false := by
  cases cell <;> simp_all [gen0, nurseryFree]

mutual

theorem nurseryFree_copyOut :
    ∀ {cell : GcCell}, cell.gen0 = true → cell.copyOut.nurseryFree = cell.hangs
  | atom _, _ => rfl
  | context .., _ => rfl
  | list g elements, h => by
      obtain rfl : g = true := h
      simpa [copyOut, nurseryFree, hangs] using nurseryFreeAll_evacuateList elements
  | array g elements, h => by
      obtain rfl : g = true := h
      simpa [copyOut, nurseryFree, hangs] using nurseryFreeAll_evacuateSlots elements
  | forward _, _ => rfl

theorem nurseryFreeAll_evacuateList :
    ∀ cells : List GcCell, nurseryFreeAll (evacuateList cells) = hangsList cells
  | [] => rfl
  | cell :: rest => by
      rw [evacuateList, hangsList]
      cases hgen0 : cell.gen0 with
      | false => simp [nurseryFreeAll, nurseryFree_of_gen0 hgen0]
      | true =>
          rw [if_pos rfl, nurseryFreeAll, nurseryFree_copyOut hgen0]
          cases hmoved : cell.isForward with
          | true => simp
          | false => simp [nurseryFreeAll_evacuateList rest]

theorem nurseryFreeAll_evacuateSlots :
    ∀ cells : List GcCell, nurseryFreeAll (evacuateSlots cells) = hangsSlots cells
  | [] => rfl
  | cell :: rest => by
      rw [evacuateSlots, hangsSlots, nurseryFreeAll, nurseryFreeAll_evacuateSlots rest]
      cases hgen0 : cell.gen0 with
      | false => simp [nurseryFree_of_gen0 hgen0]
      | true => simp [nurseryFree_copyOut hgen0]

end

/-- `gcEvacuate` leaves nothing in the nursery exactly if all of it hangs together. -/
theorem nurseryFree_gcEvacuate (cell : GcCell) : cell.gcEvacuate.nurseryFree = cell.hangs := by
  unfold gcEvacuate
  cases hgen0 : cell.gen0 with
  | false => exact nurseryFree_of_gen0 hgen0
  | true => exact nurseryFree_copyOut hgen0

theorem gcEvacuate_of_gen0 {cell : GcCell} (h : cell.gen0 = false) :
    cell.gcEvacuate = cell := by
  simp [gcEvacuate, h]

theorem taken_of_gen0 {cell : GcCell} (h : cell.gen0 = false) : cell.taken = 0 := by
  cases cell <;> simp_all [gen0, taken]

@[simp] theorem link_gcEvacuate (cell : GcCell) : cell.gcEvacuate.link = cell.link := by
  unfold gcEvacuate
  split
  · cases cell <;> rfl
  · rfl

theorem link_mem_contexts {p : Nat × Option Nat} :
    ∀ {cell : GcCell}, cell.link = some p → p.1 ∈ cell.contexts
  | context _ symbol aux, h => by
      obtain rfl := Option.some.inj h
      exact List.mem_singleton_self _
  | forward copy, h => @link_mem_contexts p copy h

theorem root_of_link {p : Nat × Option Nat} :
    ∀ {cell : GcCell}, cell.link = some p → ∃ aux, p.2 = some aux
  | context _ symbol aux, h => by
      obtain rfl := Option.some.inj h
      exact ⟨aux, rfl⟩
  | forward copy, h => @root_of_link p copy h

end GcCell

/-- `MAX_CONTEXTS`. -/
abbrev maxContexts : Nat := 256

/-- What a collection changes, the contexts it has walked with the roots it took, and how
many cells it has taken from `allocGen1Cell`. -/
structure GcState where
  contents : Nat → Option GcCell
  visitedContexts : List Nat
  walked : List (Nat × Option Nat)
  taken : Nat

namespace GcState

variable (g : GcState)

/-- The contents of the symbol are moved. -/
def evacuate (x : Nat) (cell : GcCell) : GcState :=
  { g with
    contents := Function.update g.contents x (some cell.gcEvacuate)
    taken := g.taken + cell.taken }

/-- The context is put into `visitedContexts`, if it has room. -/
def visit (ctx : Nat) (root : Nat) : GcState :=
  { g with
    visitedContexts := BoundedWalk.record maxContexts g.visitedContexts ctx
    walked := g.walked ++ [(ctx, some root)] }

end GcState

/-- What `gcWalkSymbolTree` does with a symbol between its two subtrees. -/
def gcWalkSymbol (walk : Nat → GcState → Option GcState) (x : Nat) (g : GcState) :
    Option GcState :=
  match g.contents x with
  | none => some g
  | some cell =>
      let g := g.evacuate x cell
      match cell.gcEvacuate.link with
      | some (ctx, some aux) =>
          if ctx ≠ nilSym ∧ ctx ∉ g.visitedContexts then
            let g := g.visit ctx aux
            if aux ≠ nilSym then walk aux g else some g
          else some g
      | _ => some g

/-- `gcWalkSymbolTree`. -/
def gcWalkSymbolTree (T : SymbolTree) : Nat → Nat → GcState → Option GcState
  | 0, _, _ => none
  | fuel + 1, x, g =>
      if x = nilSym then some g
      else
        (gcWalkSymbolTree T fuel (T.child .left x) g).bind fun g =>
        (gcWalkSymbol (gcWalkSymbolTree T fuel) x g).bind fun g =>
        gcWalkSymbolTree T fuel (T.child .right x) g

/-- The link of a symbol: the context and the root in the context cell it holds. -/
def linkAt (contents : Nat → Option GcCell) (x : Nat) : Option (Nat × Option Nat) :=
  (contents x).bind GcCell.link

/-- The symbols with their contents when the walk begins; an empty `contents` is none. -/
structure GcHeap where
  symbols : SymbolTree
  contents : Nat → Option GcCell
  mainContext : Nat
  currentContext : Nat

namespace GcHeap

variable (H : GcHeap)

/-- The root of the tree of a context stands in the context cell its symbol holds, if it
does hold one. -/
def contextRoot (ctx : Nat) : Option Nat := (linkAt H.contents ctx).bind Prod.snd

/-- A context that `collectGen0` starts from; the aux field of another cell than a context
cell is no symbol. -/
def walkContext (fuel : Nat) (ctx : Nat) (g : GcState) : Option GcState :=
  match linkAt g.contents ctx with
  | some (_, some aux) =>
      let g := g.visit ctx aux
      if aux ≠ nilSym then gcWalkSymbolTree H.symbols fuel aux g else some g
  | _ => none

/-- The walk over the contexts in `collectGen0`. -/
def collectGen0 (fuel : Nat) : Option GcState :=
  (H.walkContext fuel H.mainContext ⟨H.contents, [], [], 0⟩).bind fun g =>
    if H.currentContext ∉ g.visitedContexts then H.walkContext fuel H.currentContext g
    else some g

/-- The contexts that can be reached from MAIN, or from the current context, through the
contents of symbols at any depth. -/
inductive Live (H : GcHeap) (tree : Nat → ColoredTree Nat) : Nat → Prop
  | main : Live H tree H.mainContext
  | current : Live H tree H.currentContext
  | step {c d s : Nat} {cell : GcCell} : Live H tree c → s ∈ (tree c).toList →
      H.contents s = some cell → d ∈ cell.contexts → Live H tree d

end GcHeap

/-- The live contexts are finitely many, and the symbols of each are a linked tree below its
root. -/
structure ContextHeap extends GcHeap where
  tree : Nat → ColoredTree Nat
  contexts : List Nat
  finite : ∀ {c}, toGcHeap.Live tree c → c ∈ contexts
  nonNil : ∀ {c}, toGcHeap.Live tree c → c ≠ nilSym
  linked : ∀ {c}, toGcHeap.Live tree c →
    symbols.Linked none ((toGcHeap.contextRoot c).getD nilSym) (tree c)

end NewLispNeo
