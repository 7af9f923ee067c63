/-
The memory of bytecode: the `BYTECODE_OBJ`s with their reference counts, the
cells that are alive, the frames of the machine and the symbol table, and what
copying, deleting, compiling and editing cells makes of them.
-/
import NewLispNeo.HeapCell

namespace NewLispNeo

/-- A `BYTECODE_OBJ`, without its constants; `magic` says that its magic number
is in place, that is, that it has not been freed. -/
structure BytecodeObj where
  bytecode : Bytecode
  refCount : Int
  magic : Bool

/-- The cells are kept with what holds them: `some b` is the constant pool of the
object `b`, `none` anything else (a symbol, a stack, a register).  `frames` are
the objects of the `VM_FRAME`s, innermost first. -/
structure Heap where
  context : CompileContext
  objects : List BytecodeObj
  cells : List (Option Nat × HeapCell)
  frames : List Nat
  symbols : List Symbol

namespace Heap

/-- `bc->magic == BYTECODE_MAGIC`. -/
def valid (h : Heap) (b : Nat) : Bool := (h.objects[b]?.map (·.magic)).getD false

/-- `(BYTECODE_OBJ *)cell->aux`, if that is one. -/
def bytecodeOf (h : Heap) (aux : Option Nat) : Option Nat := aux.filter h.valid

/-- `ref_count++`. -/
def addRef (h : Heap) (b : Nat) : Heap :=
  { h with objects :=
      h.objects.modify b fun o => { o with refCount := o.refCount + 1 } }

mutual

/-- `copyCell`. -/
def copyCell (h : Heap) : HeapCell → HeapCell × Heap
  | .atom cell => (.atom cell, h)
  | .quote c =>
      let (c, h) := copyCell h c
      (.quote c, h)
  | .list type cs =>
      let (cs, h) := copyCells h cs
      (.list type cs, h)
  -- the `aux` of an empty list is copied as it is
  | .lambda aux [] => (.lambda aux [], h)
  | .lambda aux (c :: cs) =>
      let (c', h₁) := copyCell h c
      let (cs', h₂) := copyCells h₁ cs
      match h.bytecodeOf aux with
      | some b => (.lambda (some b) (c' :: cs'), h₂.addRef b)
      | none => (.lambda none (c' :: cs'), h₂)

/-- `copyList`. -/
def copyCells (h : Heap) : List HeapCell → List HeapCell × Heap
  | [] => ([], h)
  | c :: cs =>
      let (c, h) := copyCell h c
      let (cs, h) := copyCells h cs
      (c :: cs, h)

end

/-- The constants of an object. -/
def constants (h : Heap) (b : Nat) : List HeapCell :=
  (h.cells.filter (·.1 = some b)).map (·.2)

/-- `freeBytecodeObj` up to the deletion of the constants, which come back. -/
def freeBytecodeObj (h : Heap) (b : Nat) : Heap × List HeapCell :=
  match h.objects[b]? with
  | none => (h, [])
  | some o =>
      if o.magic = false then (h, [])
      else if 0 < o.refCount - 1 then
        ({ h with objects :=
            h.objects.set b { o with refCount := o.refCount - 1 } }, [])
      else
        ({ h with
            objects := h.objects.set b
              { o with refCount := o.refCount - 1, magic := false }
            cells := h.cells.filter (·.1 ≠ some b) },
          h.constants b)

/-- The objects that have not been freed. -/
def live (h : Heap) : Nat := h.objects.countP (·.magic)

theorem countP_set_lt {l : List BytecodeObj} {b : Nat} {o o' : BytecodeObj}
    (h : l[b]? = some o) (ho : o.magic = true) (ho' : o'.magic = false) :
    (l.set b o').countP (·.magic) < l.countP (·.magic) := by
  induction l generalizing b with
  | nil => cases h
  | cons a l ih =>
      cases b with
      | zero =>
          obtain rfl : a = o := by simpa using h
          simp [ho, ho']
      | succ b =>
          have hlt := ih (b := b) (by simpa using h)
          simp only [List.set_cons_succ, List.countP_cons]
          omega

theorem countP_set_eq {l : List BytecodeObj} {b : Nat} {o o' : BytecodeObj}
    (h : l[b]? = some o) (ho : o.magic = o'.magic) :
    (l.set b o').countP (·.magic) = l.countP (·.magic) := by
  induction l generalizing b with
  | nil => cases h
  | cons a l ih =>
      cases b with
      | zero =>
          obtain rfl : a = o := by simpa using h
          rw [List.set_cons_zero, List.countP_cons, List.countP_cons, ho]
      | succ b =>
          rw [List.set_cons_succ, List.countP_cons, List.countP_cons,
            ih (by simpa using h)]

/-- What `freeBytecodeObj` can do: nothing to a freed object, one count less, or
free the object and hand out its constants. -/
theorem freeBytecodeObj_cases (h : Heap) (b : Nat) :
    (h.valid b = false ∧ h.freeBytecodeObj b = (h, [])) ∨
    ∃ o, h.objects[b]? = some o ∧ o.magic = true ∧
      ((1 < o.refCount ∧ h.freeBytecodeObj b =
        ({ h with objects :=
            h.objects.set b { o with refCount := o.refCount - 1 } }, [])) ∨
      (o.refCount ≤ 1 ∧ h.freeBytecodeObj b =
        ({ h with
            objects := h.objects.set b
              { o with refCount := o.refCount - 1, magic := false }
            cells := h.cells.filter (·.1 ≠ some b) },
          h.constants b))) := by
  unfold freeBytecodeObj valid
  cases hb : h.objects[b]? with
  | none => exact .inl ⟨rfl, rfl⟩
  | some o =>
      cases hmagic : o.magic with
      | false => exact .inl ⟨hmagic, by simp [hmagic]⟩
      | true =>
          refine .inr ⟨o, rfl, hmagic, ?_⟩
          by_cases hcount : 1 < o.refCount
          · have hpos : 0 < o.refCount - 1 := by omega
            exact .inl ⟨hcount, by simp only [hmagic, hpos]; rfl⟩
          · have hpos : ¬ 0 < o.refCount - 1 := by omega
            exact .inr ⟨by omega, by simp only [hmagic, hpos]; rfl⟩

theorem freeBytecodeObj_live (h : Heap) (b : Nat) :
    (h.freeBytecodeObj b).1.live < h.live ∨
      ((h.freeBytecodeObj b).1.live = h.live ∧
        (h.freeBytecodeObj b).2 = []) := by
  rcases freeBytecodeObj_cases h b with
    ⟨-, heq⟩ | ⟨o, ho, hmagic, ⟨-, heq⟩ | ⟨-, heq⟩⟩
  · exact .inr (by simp [heq])
  · refine .inr ⟨?_, by rw [heq]⟩
    rw [heq]
    exact countP_set_eq ho rfl
  · refine .inl ?_
    rw [heq]
    exact countP_set_lt ho hmagic rfl

/-- `deleteList` on the cells that are still to be deleted, in the order in which
its recursion comes to them. -/
def deleteList (h : Heap) : List HeapCell → Heap
  | [] => h
  | .atom _ :: cells => deleteList h cells
  | .quote c :: cells => deleteList h (c :: cells)
  | .list _ cs :: cells => deleteList h (cs ++ cells)
  | .lambda none cs :: cells => deleteList h (cs ++ cells)
  | .lambda (some b) cs :: cells =>
      have := freeBytecodeObj_live h b
      deleteList (h.freeBytecodeObj b).1
        ((h.freeBytecodeObj b).2 ++ cs ++ cells)
  termination_by cells => (h.live, HeapCell.sizeList cells)
  decreasing_by
    · exact Prod.Lex.right _ (by simp [HeapCell.sizeList, HeapCell.size])
    · exact Prod.Lex.right _ (by simp [HeapCell.sizeList, HeapCell.size])
    · exact Prod.Lex.right _ (by simp [HeapCell.sizeList, HeapCell.size])
    · exact Prod.Lex.right _ (by simp [HeapCell.sizeList, HeapCell.size])
    · rcases this with hlt | ⟨heq, hnil⟩
      · exact Prod.Lex.left _ _ hlt
      · rw [hnil, heq]
        exact Prod.Lex.right _ (by simp [HeapCell.sizeList, HeapCell.size])

end Heap

end NewLispNeo
