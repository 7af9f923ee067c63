/-
The symbols of a context in a red-black tree: `findInsertSymbol` and
`deleteSymbol` of nl-symbol.c, with the links of the nodes in a memory.
-/
import NewLispNeo.RedBlack
import Mathlib.Data.UInt
import Mathlib.Logic.Function.Basic

namespace NewLispNeo

open RedBlack

/-- A C string: its bytes, and the byte behind the zero byte that ends it. -/
structure CString where
  bytes : List UInt8
  behind : UInt8
  noZero : 0 ∉ bytes

theorem CString.zero_notMem_nil : (0 : UInt8) ∉ ([] : List UInt8) := List.not_mem_nil

/-- `*s`, and `*(s + 1)`, which is behind the end of an empty string. -/
def CString.first (s : CString) : UInt8 := s.bytes.head?.getD 0

def CString.second (s : CString) : UInt8 :=
  match s.bytes with
  | [] => s.behind
  | _ :: rest => rest.head?.getD 0

/-- `str2cmp`. -/
def str2cmp (s1 s2 : CString) : Int :=
  ((s1.first.toNat : Int) * 256 + s1.second.toNat) -
    ((s2.first.toNat : Int) * 256 + s2.second.toNat)

/-- `strcmp`. -/
def CString.strcmp : List UInt8 → List UInt8 → Int
  | [], [] => 0
  | [], _ :: _ => -1
  | _ :: _, [] => 1
  | a :: as, b :: bs => if a = b then CString.strcmp as bs else if a < b then -1 else 1

/-- How a key compares to a name. -/
def compareKey (key name : CString) : Int :=
  if str2cmp key name = 0 then CString.strcmp key.bytes name.bytes else str2cmp key name

/-- What of a `SYMBOL` the tree is made of. -/
structure SymbolNode where
  name : CString
  color : Color
  parent : Option Nat
  left : Nat
  right : Nat

def SymbolNode.child (s : Side) (n : SymbolNode) : Nat :=
  match s with
  | .left => n.left
  | .right => n.right

def SymbolNode.setChild (s : Side) (x : Nat) (n : SymbolNode) : SymbolNode :=
  match s with
  | .left => { n with left := x }
  | .right => { n with right := x }

/-- The nodes by their address, `root`, and the first address not in use.  A null
pointer is none; every child is a node or the sentinel. -/
structure SymbolTree where
  nodes : Nat → SymbolNode
  root : Option Nat
  fresh : Nat

/-- `NIL_SYM`. -/
abbrev nilSym : Nat := 0

namespace SymbolTree

variable (T : SymbolTree)

def color (x : Nat) : Color := (T.nodes x).color
def parent (x : Nat) : Option Nat := (T.nodes x).parent
def child (s : Side) (x : Nat) : Nat := (T.nodes x).child s
def name (x : Nat) : CString := (T.nodes x).name

def update (x : Nat) (f : SymbolNode → SymbolNode) : SymbolTree :=
  { T with nodes := Function.update T.nodes x (f (T.nodes x)) }

def setColor (x : Nat) (c : Color) : SymbolTree := T.update x ({ · with color := c })
def setParent (x : Nat) (p : Option Nat) : SymbolTree := T.update x ({ · with parent := p })
def setChild (s : Side) (x y : Nat) : SymbolTree := T.update x (·.setChild s y)

/-- The parent link of a node, which is not set for the sentinel. -/
def setNodeParent (x : Nat) (p : Option Nat) : SymbolTree :=
  if x ≠ nilSym then T.setParent x p else T

/-- `y` takes the place of `x` as the child of a node or as the root. -/
def replaceChild (s : Side) (p : Option Nat) (x y : Nat) : SymbolTree :=
  match p with
  | some p =>
      if x = T.child s p then T.setChild s p y else T.setChild s.other p y
  | none => { T with root := some y }

/-- `rotateLeft`, and `rotateRight` as its mirror image. -/
def rotate (s : Side) (x : Nat) : SymbolTree :=
  let y := T.child s.other x
  let T := T.setChild s.other x (T.child s y)
  let T := T.setNodeParent (T.child s y) (some x)
  let T := T.setNodeParent y (T.parent x)
  let T := T.replaceChild s (T.parent x) x y
  let T := T.setChild s y x
  T.setNodeParent x (some y)

def rotateLeft (x : Nat) : SymbolTree := T.rotate .left x
def rotateRight (x : Nat) : SymbolTree := T.rotate .right x

end SymbolTree

open SymbolTree

/-- The side of `x` under `p`. -/
def sideOf (T : SymbolTree) (p x : Nat) : Side :=
  if x = T.child .left p then .left else .right

/-- `insertFixup`, the same on both sides. -/
def insertFixup : Nat → SymbolTree → Nat → Option SymbolTree
  | 0, _, _ => none
  | fuel + 1, T, x => do
      let root ← T.root
      if x = root then pure (T.setColor root .black)
      else
        let p ← T.parent x
        if T.color p = .red then
          let g ← T.parent p
          let s := sideOf T g p
          let y := T.child s.other g
          if T.color y = .red then
            insertFixup fuel (((T.setColor p .black).setColor y .black).setColor g .red) g
          else
            let (T, x) := if x = T.child s.other p then (T.rotate s p, p) else (T, x)
            let p ← T.parent x
            let g ← T.parent p
            insertFixup fuel (((T.setColor p .black).setColor g .red).rotate s.other g) x
        else pure (T.setColor root .black)

/-- In `deleteFixup`, a red sibling of the child of `p` on a side goes above `p`. -/
def raiseSibling (T : SymbolTree) (s : Side) (p : Nat) : SymbolTree :=
  let w := T.child s.other p
  if T.color w = .red then ((T.setColor w .black).setColor p .red).rotate s p else T

/-- In `deleteFixup`, a red child of the sibling ends the loop. -/
def borrowSibling (T : SymbolTree) (s : Side) (p : Nat) : SymbolTree :=
  let w := T.child s.other p
  let T := if T.color (T.child s.other w) = .black then
    ((T.setColor (T.child s w) .black).setColor w .red).rotate s.other w else T
  let w := T.child s.other p
  let T := (T.setColor w (T.color p)).setColor p .black
  (T.setColor (T.child s.other w) .black).rotate s p

/-- `deleteFixup`, the same on both sides.  No rotation changes the parent of `x`. -/
def deleteFixup : Nat → SymbolTree → Nat → Option SymbolTree
  | 0, _, _ => none
  | fuel + 1, T, x => do
      let root ← T.root
      if x ≠ root ∧ T.color x = .black then
        let p ← T.parent x
        let s := sideOf T p x
        let T := raiseSibling T s p
        let w := T.child s.other p
        if T.color (T.child s w) = .black ∧ T.color (T.child s.other w) = .black then
          deleteFixup fuel (T.setColor w .red) p
        else
          let T := borrowSibling T s p
          let root ← T.root
          deleteFixup fuel T root
      else pure (T.setColor x .black)

/-- The loop that looks for a key, and the node it came from last. -/
def lookFor (T : SymbolTree) (key : CString) :
    Nat → Nat → Option Nat → Option (Nat × Option Nat)
  | 0, _, _ => none
  | fuel + 1, current, parent =>
      if current = nilSym then some (nilSym, parent)
      else
        let c := compareKey key (T.name current)
        if c = 0 then some (current, parent)
        else if c < 0 then lookFor T key fuel (T.child .left current) (some current)
        else lookFor T key fuel (T.child .right current) (some current)

/-- A new red node, not yet in the tree.  Its name is stored by the caller, as a copy
of the key. -/
def withNode (T : SymbolTree) (copy : CString) (parent : Option Nat) : SymbolTree :=
  { T with
    nodes := Function.update T.nodes T.fresh ⟨copy, .red, parent, nilSym, nilSym⟩
    fresh := T.fresh + 1 }

/-- The new node `x` becomes a child or the root. -/
def linkNode (T : SymbolTree) (key : CString) (x : Nat) : Option Nat → SymbolTree
  | some p =>
      if compareKey key (T.name p) < 0 then T.setChild .left p x else T.setChild .right p x
  | none => { T with root := some x }

/-- `findInsertSymbol`. -/
def findInsertSymbol (T : SymbolTree) (key : CString) (forceCreation : Bool)
    (copy : CString) : Option (Option Nat × SymbolTree) := do
  let (current, parent) ← lookFor T key (T.fresh + 1) (T.root.getD nilSym) none
  if current ≠ nilSym then pure (some current, T)
  else if forceCreation = false then pure (none, T)
  else
    let x := T.fresh
    let T := linkNode (withNode T copy parent) key x parent
    let T ← insertFixup (T.fresh + 1) T x
    pure (some x, T)

/-- The leftmost node from one on. -/
def leftmost (T : SymbolTree) : Nat → Nat → Option Nat
  | 0, _ => none
  | fuel + 1, y => if T.child .left y = nilSym then some y else leftmost T fuel (T.child .left y)

/-- In `deleteSymbol`, `x` takes the place of its parent `y`. -/
def unchain (T : SymbolTree) (y x : Nat) : SymbolTree :=
  let T := T.setParent x (T.parent y)
  T.replaceChild .left (T.parent y) y x

/-- In `deleteSymbol`, `y` takes the place of `z`. -/
def swap (T : SymbolTree) (y z : Nat) : SymbolTree :=
  let T := T.setChild .left y (T.child .left z)
  let T := T.setChild .right y (T.child .right z)
  let T := T.setParent y (T.parent z)
  let T := T.replaceChild .left (T.parent z) z y
  let T := T.setParent (T.child .right y) (some y)
  let T := T.setParent (T.child .left y) (some y)
  T.setColor y (T.color z)

/-- `deleteSymbol`, once the key is found in `z`. -/
def deleteNode (T : SymbolTree) (z : Nat) : Option SymbolTree := do
  let y ← if T.child .left z = nilSym ∨ T.child .right z = nilSym then some z
    else leftmost T (T.fresh + 1) (T.child .right z)
  let x := if T.child .left y ≠ nilSym then T.child .left y else T.child .right y
  let T := unchain T y x
  let color := T.color y
  let T := if y ≠ z then swap T y z else T
  if color = .black then deleteFixup (T.fresh + 1) T x else some T

/-- `deleteSymbol`, and whether the key was found. -/
def deleteSymbol (T : SymbolTree) (key : CString) : Option (Bool × SymbolTree) := do
  let (z, _) ← lookFor T key (T.fresh + 1) (T.root.getD nilSym) none
  if z = nilSym then pure (false, T)
  else
    let T ← deleteNode T z
    pure (true, T)

/-- `collectSymbols`. -/
def collectSymbols (T : SymbolTree) : Nat → Nat → Option (List Nat)
  | 0, _ => none
  | fuel + 1, x =>
      if x ≠ nilSym then do
        let before ← collectSymbols T fuel (T.child .left x)
        let after ← collectSymbols T fuel (T.child .right x)
        pure (before ++ x :: after)
      else pure []

end NewLispNeo
