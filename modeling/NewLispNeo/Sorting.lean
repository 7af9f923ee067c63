/-
`sort`: lists and arrays reach `binsort` through two callers, which prepare the
comparator each in its own way.
-/
import NewLispNeo.Binsort
import NewLispNeo.CellPool
import NewLispNeo.Compare

namespace NewLispNeo

open BottomUp
open Linked (Chain)

/-- The `contents` of a cell that is no list and no string: an array has the number
of its storage. -/
inductive Contents where
  | array (storage : Nat)
  | other

/-- The links of the cells that are sorted, and the vectors on the heap, a freed one
being `none`.  All other cells belong to the rest of the interpreter. -/
structure SortMemory where
  pool : CellPool Contents
  vectors : Nat → Option (List Address)
  nextVector : Nat

namespace SortMemory

theorem update_vectors (m : SortMemory) (x : Nat) (cells : List Address)
    (h : m.vectors x = some cells) :
    { m with vectors := Function.update m.vectors x (some cells) } = m := by
  rw [← h, Function.update_eq_self]

/-- The vector with the number `x`. -/
def vector (x : Nat) : VectorAccess SortMemory Address where
  get m := m.vectors x
  set cells m := { m with vectors := Function.update m.vectors x (some cells) }
  get_set _ _ := Function.update_self ..
  set_set _ _ m := congrArg (fun vectors => SortMemory.mk m.pool vectors m.nextVector)
    (Function.update_idem ..)
  set_get cells m := update_vectors m x cells

def free (m : SortMemory) (x : Nat) : SortMemory :=
  { m with vectors := Function.update m.vectors x none }

end SortMemory

/-- The rest of the interpreter, with states `W` and errors `ε`: what cells and
symbols hold, the functions that the head of an expression may be, the result
stack. -/
structure Interpreter (W ε : Type) where
  value : W → Address → Cell
  contents : SortMemory × W → Symbol → Cell
  currentContext : W → String
  /-- `evaluateExpression` of a cell that is no self-evaluating one, symbol or
  quote. -/
  evaluateOther : Cell → Effect ε (SortMemory × W) Cell
  /-- A call of a primitive. -/
  callPrimitive : Primitive → List Cell → Effect ε (SortMemory × W) Cell
  /-- A call through a dynamic symbol. -/
  callDynamic : Symbol → String → List Cell → Effect ε (SortMemory × W) Cell
  /-- A call of the default functor of a context. -/
  callContext : Symbol → List Cell → Effect ε (SortMemory × W) Cell
  /-- A call of a lambda or a macro, or implicit indexing, in a context. -/
  callOther : String → Cell → List Cell → Effect ε (SortMemory × W) Cell
  ofError : Error → ε
  ofListError : ListError → ε
  resultStackIdx : W → Nat
  cleanupResults : Nat → W → W

variable {W ε : Type}

namespace Interpreter

variable (I : Interpreter W ε) (rt : Runtime)

def evaluateExpression : Cell → Effect ε (SortMemory × W) Cell
  | .symbol s | .context s => fun w => .value (I.contents w s) w
  | .quote c => pure c
  | .expression l => I.evaluateOther (.expression l)
  | .dynSymbol c name => I.evaluateOther (.dynSymbol c name)
  | cell => pure cell

/-- What `evaluateExpression` does once the head of an expression is evaluated. -/
def callFunction (newContext : String) (pCell : Cell) (args : List Cell) :
    Effect ε (SortMemory × W) Cell :=
  match pCell with
  | .primitive p => I.callPrimitive p args
  | .context s => I.callContext s args
  | .nil | .true_ | .symbol _ | .quote _ | .dynSymbol _ _ =>
      Effect.raise (I.ofError .invalidFunction)
  | pCell => I.callOther newContext pCell args

/-- `evaluateExpression` of an expression with a head and arguments. -/
def evaluateCall (head : Cell) (args : List Cell) : Effect ε (SortMemory × W) Cell :=
  match head with
  | .symbol s => fun w => I.callFunction s.context (I.contents w s) args w
  | .dynSymbol c name => I.callDynamic c name args
  | head => I.evaluateExpression head >>= fun pCell w =>
      I.callFunction (I.currentContext w.2) pCell args w

/-- The call of the comparator in `binsort`, the result stack cleaned up after it
and after an error. -/
def callComparator (pCell a b : Cell) : Effect ε (SortMemory × W) Bool := fun w =>
  let resultIndexSave := I.resultStackIdx w.2
  match I.evaluateCall pCell [.quote a, .quote b] w with
  | .value cell w =>
      .value (!isNil cell && !isEmpty cell) (w.1, I.cleanupResults resultIndexSave w.2)
  | .error e w => .error e (w.1, I.cleanupResults resultIndexSave w.2)
  | .undefined => .undefined
  | .timeout => .timeout

/-- The comparison of two values, by `compareCells` where `pCell` is missing. -/
def comparison (pCell : Option Cell) (a b : Cell) : Effect ε (SortMemory × W) Bool :=
  match pCell with
  | none => fun w =>
      match compareCells rt a b with
      | .value c => .value (decide (c ≤ 0)) w
      | .error e => .error (I.ofError e) w
      | .undefined => .undefined
      | .timeout => .timeout
  | some pCell => I.callComparator pCell a b

/-- The comparison of two cells. -/
def cellComparison (pCell : Option Cell) (a b : Address) :
    Effect ε (SortMemory × W) Bool := fun w =>
  I.comparison rt pCell (I.value w.2 a) (I.value w.2 b) w

/-- The comparator of a list, evaluated where there is one: the function that
`listToSortedVector` makes of its parameter. -/
def preparedComparator (func : Option Cell) : Effect ε (SortMemory × W) (Option Cell) :=
  match func with
  | none => pure none
  | some func => I.evaluateExpression func >>= fun func =>
      match func with
      | .symbol s => fun w => .value (some (I.contents w s)) w
      | func => pure (some func)

end Interpreter

/-- The elements of a list, for the vector. -/
def listCells : Nat → Address → Effect ε (SortMemory × W) (List Address)
  | 0, _ => fun _ => .timeout
  | fuel + 1, list => fun (m, w) =>
      if list = nilCell then .value [] (m, w)
      else (listCells fuel (m.pool.next list) >>= fun cells => pure (list :: cells))
        (m, w)

/-- `allocMemory` of a vector with the given cells. -/
def allocVector (cells : List Address) : Effect ε (SortMemory × W) Nat := fun (m, w) =>
  .value m.nextVector
    ({ m with vectors := Function.update m.vectors m.nextVector (some cells)
              nextVector := m.nextVector + 1 }, w)

/-- The loop that links the cells of a vector. -/
def relinkCells (pool : CellPool Contents) : Address → List Address → CellPool Contents
  | list, [] => pool.setNext list nilCell
  | list, next :: cells => relinkCells (pool.setNext list next) next cells

/-- The vector relinked and freed. -/
def relinkVector (cell : Address) (kind : ListKind) (x : Nat) :
    Effect ε (SortMemory × W) Unit := fun (m, w) =>
  match m.vectors x with
  | some (list :: cells) =>
      let pool := (relinkCells m.pool list cells).setContents cell (.list kind list)
      .value () ({ m with pool := pool }.free x, w)
  | _ => .undefined

section Primitives

variable (I : Interpreter W ε) (rt : Runtime)

/-- `binsort` of the vector `x`, which it frees when a call of `pCell` fails; its own
vector `y` is freed on every such path and left out. -/
def binsortVector (pCell : Option Cell) (x n : Nat) : Effect ε (SortMemory × W) Unit :=
  fun w =>
    match binsort (I.cellComparison rt pCell) (SortMemory.vector x) n w with
    | .error e w => .error e (if pCell.isSome then w.1.free x else w.1, w.2)
    | .value r w => .value r w
    | .undefined => .undefined
    | .timeout => .timeout

/-- `listToSortedVector` and the loop that links the cells again. -/
def sortList (fuel : Nat) (cell : Address) (kind : ListKind) (first : Address)
    (func : Option Cell) : Effect ε (SortMemory × W) Unit :=
  listCells fuel first >>= fun cells =>
    allocVector cells >>= fun x =>
      I.preparedComparator func >>= fun pCell =>
        binsortVector I rt pCell x cells.length >>= fun _ => relinkVector cell kind x

/-- `p_sort`: the result is the sorted cell, `none` for a new empty list. -/
def p_sort (fuel : Nat) (isProtected : Bool) (cell : Address) (func : Option Cell) :
    Effect ε (SortMemory × W) (Option Address) := fun (m, w) =>
  if isProtected then .error (I.ofListError .symbolProtected) (m, w)
  else
    match m.pool.contents cell with
    | .list kind first =>
        if first = nilCell then .value none (m, w)
        else (sortList I rt fuel cell kind first func >>= fun _ => pure (some cell))
          ({ m with pool := m.pool.setAux cell nilCell }, w)
    | .other (.array storage) =>
        match m.vectors storage with
        | none => .undefined
        | some cells =>
            (binsortVector I rt func storage cells.length >>= fun _ =>
              pure (some cell)) (m, w)
    | _ => .error (I.ofListError .listOrArrayExpected) (m, w)

end Primitives

/-! ### The loops over a chain -/

section Chains

variable {fuel : Nat} {m : SortMemory} {w : W} {first a : Address}
  {cells : List Address}

theorem listCells_eq (h : Chain m.pool.next nilCell first cells)
    (hfuel : cells.length < fuel) :
    (listCells fuel first : Effect ε (SortMemory × W) _) (m, w) =
      .value cells (m, w) := by
  induction fuel generalizing first cells with
  | zero => omega
  | succ fuel ih =>
      rw [listCells]
      cases cells with
      | nil =>
          have hfirst := Linked.Chain.nil_iff.mp h
          exact if_pos hfirst
      | cons c cells =>
          obtain ⟨rfl, hne, hrest⟩ := Linked.Chain.cons_iff.mp h
          rw [List.length_cons] at hfuel
          refine (if_neg hne).trans ?_
          rw [Effect.bind_of_value (ih hrest (by omega))]
          rfl

/-- The loop writes the `next` of its own cells only. -/
theorem next_relinkCells (pool : CellPool Contents) (list : Address)
    (h : a ∉ list :: cells) : (relinkCells pool list cells).next a = pool.next a := by
  induction cells generalizing pool list with
  | nil =>
      rw [List.mem_singleton] at h
      exact Function.update_of_ne h ..
  | cons d cells ih =>
      rw [List.mem_cons, not_or] at h
      rw [relinkCells, ih _ _ h.2]
      exact Function.update_of_ne h.1 ..

theorem relinkCells_chain (pool : CellPool Contents) {list : Address}
    (hnodup : (list :: cells).Nodup) (hnil : nilCell ∉ list :: cells) :
    Chain (relinkCells pool list cells).next nilCell list (list :: cells) := by
  induction cells generalizing pool list with
  | nil =>
      rw [List.mem_singleton] at hnil
      refine Linked.Chain.cons_iff.mpr ⟨rfl, fun h => hnil h.symm, ?_⟩
      exact Linked.Chain.nil_iff.mpr (Function.update_self ..)
  | cons d cells ih =>
      obtain ⟨hlist, hnodup'⟩ := List.nodup_cons.mp hnodup
      rw [List.mem_cons, not_or] at hnil
      have hrest := ih (pool.setNext list d) hnodup' hnil.2
      have hnext : (relinkCells (pool.setNext list d) d cells).next list = d := by
        rw [next_relinkCells _ _ hlist]
        exact Function.update_self ..
      refine Linked.Chain.cons_iff.mpr ⟨rfl, fun h => hnil.1 h.symm, ?_⟩
      rw [relinkCells, hnext]
      exact hrest

end Chains

/-! ### Sequences -/

/-- The cell holds `cells` as a list or as an array. -/
inductive SortMemory.IsSequence (m : SortMemory) (x : Address) (cells : List Address) :
    Prop
  | list (kind : ListKind) (h : m.pool.IsListOf x kind cells)
  | array (storage : Nat) (contents : m.pool.contents x = .other (.array storage))
      (vector : m.vectors storage = some cells)

/-- How `binsortVector` ends when the merge sort of the cells ends so; `rest` is the
vector that an error without a comparator leaves. -/
def vectorEnd (pCell : Option Cell) (x : Nat) (m : SortMemory) (rest : List Address) :
    Ending ε W (List Address) → Ending ε (SortMemory × W) Unit
  | .value cells w => .value () ((SortMemory.vector x).set cells m, w)
  | .error e w =>
      .error e (if pCell.isSome then m.free x else (SortMemory.vector x).set rest m, w)
  | .undefined => .undefined
  | .timeout => .timeout

/-- How `p_sort` ends when the merge sort of the cells ends so: with `good` after a
value and `bad` after an error. -/
def SortEnds (x : Address) (good : List Address → SortMemory → Prop)
    (bad : SortMemory → Prop) :
    Ending ε W (List Address) → Ending ε (SortMemory × W) (Option Address) → Prop
  | .value cells w, r => ∃ m, r = .value (some x) (m, w) ∧ good cells m
  | .error e w, r => ∃ m, r = .error e (m, w) ∧ bad m
  | .undefined, r => r = .undefined
  | .timeout, r => r = .timeout

section Spec

variable {I : Interpreter W ε} {rt : Runtime} {fuel : Nat} {m : SortMemory} {w w₁ : W}
  {x : Address} {kind : ListKind} {cells : List Address} {func pCell : Option Cell}
  {P : W → Prop} {before : Address → Address → Effect ε W Bool}

theorem binsortVector_eq {storage : Nat} (hcells : m.vectors storage = some cells)
    (hacts : ∀ m, ∀ a ∈ cells, ∀ b ∈ cells,
      Effect.ActsAs P m (I.cellComparison rt pCell a b) (before a b)) (hw : P w) :
    ∃ rest, rest.Perm cells ∧
      binsortVector I rt pCell storage cells.length (m, w) =
        vectorEnd pCell storage m rest (passes before (cells.length + 1) 1 cells w) := by
  obtain ⟨rest, hperm, heq⟩ := binsortLoop_eq hacts (cells.length + 1) Nat.one_pos
    (.refl cells) (x := SortMemory.vector storage) hcells hw
  refine ⟨rest, hperm, ?_⟩
  rw [binsortVector, binsort, heq]
  cases passes before (cells.length + 1) 1 cells w with
  | value cells' w' => rfl
  | error e w' =>
      have hfree : ((SortMemory.vector storage).set rest m).free storage =
          m.free storage :=
        congrArg (fun vectors => SortMemory.mk m.pool vectors m.nextVector)
          (Function.update_idem ..)
      simp only [VectorAccess.store, vectorEnd, hfree]
  | undefined => rfl
  | timeout => rfl

/-- Sorting a list: the links change only after the last comparison. -/
theorem p_sort_list (hx : m.pool.IsListOf x kind cells) (hne : cells ≠ [])
    (hfuel : cells.length < fuel)
    (hfunc : ∀ m, I.preparedComparator func (m, w) = .value pCell (m, w₁))
    (hacts : ∀ m, ∀ a ∈ cells, ∀ b ∈ cells,
      Effect.ActsAs P m (I.cellComparison rt pCell a b) (before a b)) (hw : P w₁) :
    SortEnds x (fun cells' m' => m'.pool.IsListOf x kind cells')
      (fun m' => m'.pool.IsListOf x kind cells)
      (passes before (cells.length + 1) 1 cells w₁)
      (p_sort I rt fuel false x func (m, w)) := by
  obtain ⟨⟨first, hfirst, hchain⟩, hnotMem⟩ := hx
  have hfirst' : first ≠ nilCell := fun h => hne (hchain.eq_stop_iff.mp h)
  -- the memory with the last element forgotten and the vector filled
  obtain ⟨m₁, hm₁⟩ : ∃ m₁ : SortMemory, m₁ =
    { pool := m.pool.setAux x nilCell
      vectors := Function.update m.vectors m.nextVector (some cells)
      nextVector := m.nextVector + 1 } := ⟨_, rfl⟩
  have hvector : m₁.vectors m.nextVector = some cells := by
    rw [hm₁]
    exact Function.update_self ..
  have hlist : ∀ m' : SortMemory, m'.pool = m₁.pool → m'.pool.IsListOf x kind cells := by
    intro m' hpool
    rw [hpool, hm₁]
    exact ⟨⟨first, hfirst, hchain⟩, hnotMem⟩
  obtain ⟨rest, -, hsort⟩ := binsortVector_eq hvector hacts hw
  have hstart : p_sort I rt fuel false x func (m, w) =
      ((binsortVector I rt pCell m.nextVector cells.length >>= fun _ =>
        relinkVector x kind m.nextVector) >>= fun _ => pure (some x)) (m₁, w₁) := by
    have hcells : (listCells fuel first : Effect ε (SortMemory × W) _)
        ({ m with pool := m.pool.setAux x nilCell }, w) =
          .value cells ({ m with pool := m.pool.setAux x nilCell }, w) :=
      listCells_eq hchain hfuel
    simp only [p_sort, hfirst, hfirst', if_false, Bool.false_eq_true]
    have halloc : (allocVector cells : Effect ε (SortMemory × W) _)
        ({ m with pool := m.pool.setAux x nilCell }, w) =
          .value m.nextVector (m₁, w) := by
      rw [hm₁]
      rfl
    rw [sortList, Effect.bind_assoc, Effect.bind_of_value hcells, Effect.bind_assoc,
      Effect.bind_of_value halloc, Effect.bind_assoc, Effect.bind_of_value (hfunc m₁)]
  rw [hstart, Effect.bind_assoc]
  cases hend : passes before (cells.length + 1) 1 cells w₁ with
  | value cells' w' =>
      rw [hend] at hsort
      have hperm := passes_perm hend
      obtain ⟨c, cells₂, rfl⟩ : ∃ c cells₂, cells' = c :: cells₂ := by
        refine List.exists_cons_of_ne_nil fun hnil => hne ?_
        rw [hnil] at hperm
        exact hperm.symm.eq_nil
      have hnil : nilCell ∉ c :: cells₂ := fun h =>
        hchain.stop_notMem (hperm.mem_iff.mp h)
      have hx' : x ∉ c :: cells₂ := fun h => hnotMem (hperm.mem_iff.mp h)
      have hlinked := relinkCells_chain m₁.pool (hperm.nodup_iff.mpr hchain.nodup) hnil
      have hrelink : (relinkVector x kind m.nextVector : Effect ε (SortMemory × W) _)
          ((SortMemory.vector m.nextVector).set (c :: cells₂) m₁, w') =
            .value () (({ (SortMemory.vector m.nextVector).set (c :: cells₂) m₁ with
              pool := (relinkCells m₁.pool c cells₂).setContents x (.list kind c) }
                : SortMemory).free m.nextVector, w') := by
        simp only [relinkVector, SortMemory.vector, Function.update_self]
      rw [Effect.bind_of_value hsort]
      refine ⟨_, Effect.bind_of_value hrelink, ⟨c, Function.update_self .., ?_⟩, hx'⟩
      exact hlinked
  | error e w' =>
      rw [hend] at hsort
      refine ⟨_, Effect.bind_of_error hsort, hlist _ ?_⟩
      split
      · rfl
      · rfl
  | undefined =>
      rw [hend] at hsort
      exact Effect.bind_of_undefined hsort
  | timeout =>
      rw [hend] at hsort
      exact Effect.bind_of_timeout hsort

/-- Sorting an array: its own storage is the vector, which a failing comparator
frees. -/
theorem p_sort_array (fuel : Nat) {storage : Nat}
    (hx : m.pool.contents x = .other (.array storage))
    (hvector : m.vectors storage = some cells)
    (hacts : ∀ m, ∀ a ∈ cells, ∀ b ∈ cells,
      Effect.ActsAs P m (I.cellComparison rt func a b) (before a b)) (hw : P w) :
    SortEnds x (fun cells' m' => m'.IsSequence x cells')
      (fun m' => m'.pool = m.pool ∧ (func.isSome → m'.vectors storage = none) ∧
        (func = none → ∃ rest, rest.Perm cells ∧ m'.vectors storage = some rest))
      (passes before (cells.length + 1) 1 cells w)
      (p_sort I rt fuel false x func (m, w)) := by
  obtain ⟨rest, hperm, hsort⟩ := binsortVector_eq hvector hacts hw
  have hstart : p_sort I rt fuel false x func (m, w) =
      (binsortVector I rt func storage cells.length >>= fun _ => pure (some x))
        (m, w) := by
    simp only [p_sort, hx, hvector, if_false, Bool.false_eq_true]
  rw [hstart]
  cases hend : passes before (cells.length + 1) 1 cells w with
  | value cells' w' =>
      rw [hend] at hsort
      exact ⟨_, Effect.bind_of_value hsort, .array storage hx (Function.update_self ..)⟩
  | error e w' =>
      rw [hend] at hsort
      refine ⟨_, Effect.bind_of_error hsort, ?_, fun h => ?_, fun h => ?_⟩
      · split
        · rfl
        · rfl
      · rw [if_pos h]
        exact Function.update_self ..
      · rw [h]
        exact ⟨rest, hperm, Function.update_self ..⟩
  | undefined =>
      rw [hend] at hsort
      exact Effect.bind_of_undefined hsort
  | timeout =>
      rw [hend] at hsort
      exact Effect.bind_of_timeout hsort

end Spec

end NewLispNeo
