/-
The copy of a context: `copyContextCell`, `iterateCopyCreateSymbols`, `p_new` and
`p_defineNew` of newlisp.c.
-/
import NewLispNeo.SymbolDeletion

namespace NewLispNeo

/-- A cell by what the copy reads of it.  Memory of a cell's own has a block number; a
symbol is addressed by the context it is in and its node there. -/
inductive CopyCell where
  | nil
  | atom (type aux contents : UInt64)
  | primitive (function : UInt64)
  | string (block : Nat) (bytes : List UInt8)
  | bigint (block : Nat) (digits : List UInt64)
  | symbol (context node : Nat)
  | dynSymbol (block : Nat) (name : List UInt8) (context node : Nat)
  | list (type : UInt64) (elements : List CopyCell)
  | array (block : Nat) (elements : List CopyCell)

/-- `symbolType(sPtr) == CELL_PRIMITIVE`. -/
def CopyCell.isPrimitive : CopyCell → Bool
  | primitive _ => true
  | _ => false

structure CopyFlags where
  builtin : Bool
  ffi : Bool
  isProtected : Bool
  isGlobal : Bool
deriving DecidableEq

def CopyFlags.none : CopyFlags := ⟨false, false, false, false⟩

/-- A context: the name of its symbol, with the memory of it, its tree, and what its
symbols have besides.  The contents of a new symbol are a null pointer. -/
structure CopyContext where
  name : CString
  nameBlock : Nat
  table : SymbolTree
  contents : Nat → Option CopyCell
  flags : Nat → CopyFlags
  symbolBlock : Nat → Nat

structure CopyMemory where
  context : Nat → CopyContext
  nextBlock : Nat

namespace CopyMemory

variable (M : CopyMemory)

def update (c : Nat) (f : CopyContext → CopyContext) : CopyMemory :=
  { M with context := Function.update M.context c (f (M.context c)) }

@[simp] theorem context_update_self (c : Nat) (f : CopyContext → CopyContext) :
    (M.update c f).context c = f (M.context c) :=
  Function.update_self ..

theorem context_update_of_ne {c d : Nat} (f : CopyContext → CopyContext) (h : d ≠ c) :
    (M.update c f).context d = M.context d :=
  Function.update_of_ne h ..

/-- `allocMemory`. -/
def allocMemory : Nat × CopyMemory := (M.nextBlock, { M with nextBlock := M.nextBlock + 1 })

def setContents (c x : Nat) (cell : CopyCell) : CopyMemory :=
  M.update c fun C => { C with contents := Function.update C.contents x (some cell) }

def setFlags (c x : Nat) (flags : CopyFlags) : CopyMemory :=
  M.update c fun C => { C with flags := Function.update C.flags x flags }

def setSymbolBlock (c x : Nat) (block : Nat) : CopyMemory :=
  M.update c fun C => { C with symbolBlock := Function.update C.symbolBlock x block }

theorem context_setFlags_setContents (c x : Nat) (cell : CopyCell) (flags : CopyFlags) :
    ((M.setContents c x cell).setFlags c x flags).context c = { M.context c with
      contents := Function.update (M.context c).contents x (some cell)
      flags := Function.update (M.context c).flags x flags } := by
  rw [setFlags, context_update_self, setContents, context_update_self]

theorem context_setFlags_setContents_of_ne {c d : Nat} (x : Nat) (cell : CopyCell)
    (flags : CopyFlags) (h : d ≠ c) :
    ((M.setContents c x cell).setFlags c x flags).context d = M.context d := by
  rw [setFlags, context_update_of_ne _ _ h, setContents, context_update_of_ne _ _ h]

/-- `newPtr->flags |= sPtr->flags & SYMBOL_PROTECTED`. -/
def orProtected (fromContext sPtr toContext newPtr : Nat) : CopyMemory :=
  let flags := (M.context toContext).flags newPtr
  let sourceFlags := (M.context fromContext).flags sPtr
  M.setFlags toContext newPtr
    { flags with isProtected := flags.isProtected || sourceFlags.isProtected }

/-- `lookupSymbol`. -/
def lookupSymbol (token : CString) (c : Nat) : Option (Option Nat) := do
  let (sPtr, _) ← findInsertSymbol (M.context c).table token false token
  pure sPtr

/-- `translateCreateSymbol(token, type, context, TRUE)` in a context that is not MAIN.  The
name of a symbol of type CELL_PRIMITIVE is not copied. -/
def translateCreateSymbol (token : CString) (tokenBlock : Nat) (primitive : Bool) (c : Nat) :
    Option (Nat × CopyMemory) := do
  let (sPtr, table) ← findInsertSymbol (M.context c).table token true token
  let x ← sPtr
  let M := M.update c ({ · with table := table })
  if ((M.context c).contents x).isSome then pure (x, M)
  else if primitive then pure (x, (M.setSymbolBlock c x tokenBlock).setContents c x .nil)
  else
    let (block, M) := M.allocMemory
    pure (x, (M.setSymbolBlock c x block).setContents c x .nil)

end CopyMemory

section Copy

variable (fromContext toContext : Nat)

mutual

/-- `copyContextCell`. -/
def copyContextCell : Nat → CopyCell → CopyMemory → Option (CopyCell × CopyMemory)
  | 0, _, _ => none
  | _ + 1, .string _ bytes, M =>
      let (block, M) := M.allocMemory
      some (.string block bytes, M)
  | fuel + 1, .symbol c sPtr, M =>
      let flags := (M.context c).flags sPtr
      if c = fromContext ∧ ¬(flags.builtin || flags.ffi) then do
        let source := M.context c
        let token := source.table.name sPtr
        match ← M.lookupSymbol token toContext with
        | some newSptr => pure (.symbol toContext newSptr, M.setFlags toContext newSptr flags)
        | none => do
            let cell ← source.contents sPtr
            let (newSptr, M) ← M.translateCreateSymbol token (source.symbolBlock sPtr)
              cell.isPrimitive toContext
            let (newCell, M) ← copyContextCell fuel cell M
            let M := M.setContents toContext newSptr newCell
            pure (.symbol toContext newSptr, M.setFlags toContext newSptr flags)
      else some (.symbol c sPtr, M)
  | _ + 1, .dynSymbol _ name c sPtr, M => do
      let source := M.context c
      let (aux, M) ←
        if c = fromContext then do
          let (x, M) ← M.translateCreateSymbol (source.table.name sPtr)
            (source.symbolBlock sPtr) false toContext
          pure ((toContext, x), M)
        else some ((c, sPtr), M)
      let (block, M) := M.allocMemory
      pure (.dynSymbol block name aux.1 aux.2, M)
  | fuel + 1, .list type elements, M => do
      let (elements, M) ← copyContextList fuel elements M
      pure (.list type elements, M)
  | fuel + 1, .array _ elements, M => do
      let (block, M) := M.allocMemory
      let (elements, M) ← copyContextList fuel elements M
      pure (.array block elements, M)
  | _ + 1, cell, M => some (cell, M)

/-- `copyContextList`, and the loop of `copyContextArray`. -/
def copyContextList : Nat → List CopyCell → CopyMemory → Option (List CopyCell × CopyMemory)
  | 0, _, _ => none
  | _ + 1, [], M => some ([], M)
  | fuel + 1, cell :: rest, M => do
      let (newCell, M) ← copyContextCell fuel cell M
      let (newRest, M) ← copyContextList fuel rest M
      pure (newCell :: newRest, M)

end

/-- The name that a symbol is copied to, with the memory of the name it is taken from: the
default symbol goes to the default symbol. -/
def targetName (M : CopyMemory) (sPtr : Nat) : CString × Nat :=
  let source := M.context fromContext
  let name := source.table.name sPtr
  if name.first = source.name.first ∧ CString.strcmp name.bytes source.name.bytes = 0 then
    ((M.context toContext).name, (M.context toContext).nameBlock)
  else (name, source.symbolBlock sPtr)

/-- What `iterateCopyCreateSymbols` does with a symbol between its two subtrees. -/
def copySymbol (overWriteFlag : Bool) (fuel sPtr : Nat) (M : CopyMemory) :
    Option CopyMemory := do
  let cell ← (M.context fromContext).contents sPtr
  let (token, block) := targetName fromContext toContext M sPtr
  let (newPtr, newFlag, M) ←
    match ← M.lookupSymbol token toContext with
    | some newPtr => pure (newPtr, false, M)
    | none => do
        let (newPtr, M) ← M.translateCreateSymbol token block cell.isPrimitive toContext
        pure (newPtr, true, M)
  let M ←
    if overWriteFlag || newFlag then do
      let cell ← (M.context fromContext).contents sPtr
      let (newCell, M) ← copyContextCell fromContext toContext fuel cell M
      pure (M.setContents toContext newPtr newCell)
    else pure M
  pure (M.orProtected fromContext sPtr toContext newPtr)

/-- `iterateCopyCreateSymbols`. -/
def iterateCopyCreateSymbols (overWriteFlag : Bool) : Nat → Nat → CopyMemory → Option CopyMemory
  | 0, _, _ => none
  | fuel + 1, sPtr, M =>
      if sPtr ≠ nilSym ∧ ¬((M.context fromContext).flags sPtr).builtin then do
        let M ← iterateCopyCreateSymbols overWriteFlag fuel
          ((M.context fromContext).table.child .left sPtr) M
        let M ← copySymbol fromContext toContext overWriteFlag fuel sPtr M
        iterateCopyCreateSymbols overWriteFlag fuel
          ((M.context fromContext).table.child .right sPtr) M
      else some M

end Copy

/-- The error when the target is MAIN. -/
inductive CopyError where
  | targetNoMain

/-- `p_new` on contexts. -/
def p_new (mainContext fromContext toContext : Nat) (overWriteFlag : Bool) (fuel : Nat)
    (M : CopyMemory) : Option (Except CopyError CopyMemory) :=
  if toContext = mainContext then some (.error .targetNoMain)
  else do
    let root := ((M.context fromContext).table.root).getD nilSym
    let M ← iterateCopyCreateSymbols fromContext toContext overWriteFlag fuel root M
    pure (.ok M)

/-- `p_defineNew`: the symbol with its context, and the name and the context of the
target. -/
def p_defineNew (mainContext fromContext sourcePtr : Nat) (name : CString) (nameBlock : Nat)
    (toContext fuel : Nat) (M : CopyMemory) : Option (Except CopyError (Nat × CopyMemory)) :=
  if toContext = mainContext then some (.error .targetNoMain)
  else do
    let cell ← (M.context fromContext).contents sourcePtr
    let (targetPtr, M) ← M.translateCreateSymbol name nameBlock cell.isPrimitive toContext
    let cell ← (M.context fromContext).contents sourcePtr
    let (newCell, M) ← copyContextCell fromContext toContext fuel cell M
    let M := M.setContents toContext targetPtr newCell
    let flags := (M.context fromContext).flags sourcePtr
    pure (.ok (targetPtr, M.setFlags toContext targetPtr flags))

end NewLispNeo
