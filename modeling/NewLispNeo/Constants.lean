/-
What an `OP_CONST` pushes for each literal of a lambda, where the cells of the constants
are allocated, and when the constants are what the lambda says.
-/
import NewLispNeo.ConstantForms
import NewLispNeo.ConstantPools
import NewLispNeo.Startup

namespace NewLispNeo

open Compiler Interning

mutual

/-- A cell without the symbols its lambdas were compiled for: its type and what hangs
off it. -/
def unnamed : Cell → Cell
  | .quote cell => .quote (unnamed cell)
  | .expression cells => .expression (unnamedList cells)
  | .lambda _ cells => .lambda none (unnamedList cells)
  | .fexpr cells => .fexpr (unnamedList cells)
  | .array cells => .array (unnamedList cells)
  | cell => cell

def unnamedList : List Cell → List Cell
  | [] => []
  | cell :: cells => unnamed cell :: unnamedList cells

end

/-- Two cells of the same type with identical contents. -/
def SameCell (k v : Cell) : Prop := unnamed k = unnamed v

/-- Where a cell is allocated. -/
inductive Generation where
  | gen0 | gen1
deriving DecidableEq

mutual

/-- `copyCell` takes the cells of its copy from the nursery. -/
def copyCellGenerations : Cell → List Generation
  | .quote cell => .gen0 :: copyCellGenerations cell
  | .expression cells => .gen0 :: copyCellListGenerations cells
  | .lambda _ cells => .gen0 :: copyCellListGenerations cells
  | .fexpr cells => .gen0 :: copyCellListGenerations cells
  | .array cells => .gen0 :: copyCellListGenerations cells
  | _ => [.gen0]

def copyCellListGenerations : List Cell → List Generation
  | [] => []
  | cell :: cells => copyCellGenerations cell ++ copyCellListGenerations cells

end

/-- `allocGen1Cell`, by where the free cells lie that `firstFreeCell` leads to, in
order: the first of them, or one of a new block.  `p_setf` and `updateCell` put nursery
cells among them. -/
def allocGen1Cell : List Generation → Generation × List Generation
  | [] => (.gen1, [])
  | g :: free => (g, free)

/-- The next `n` cells. -/
def allocGen1Cells : Nat → List Generation → List Generation × List Generation
  | 0, free => ([], free)
  | n + 1, free =>
      let (g, free) := allocGen1Cell free
      let (gs, free) := allocGen1Cells n free
      (g :: gs, free)

/-- A cell of the type of `nilCell` or `trueCell`; alone it is that cell. -/
def isNilOrTrue : Cell → Bool
  | .nil | .true_ => true
  | _ => false

mutual

/-- Where the cells of a copy by `copyToGen1` lie, and the free cells left: it has
`copyArray` copy the elements of an array, and that calls `copyCell`. -/
def copyToGen1Generations (free : List Generation) :
    Cell → List Generation × List Generation
  | .nil | .true_ => ([], free)
  | .quote cell =>
      let (g, free) := allocGen1Cell free
      let (gs, free) := copyToGen1Generations free cell
      (g :: gs, free)
  | .expression cells | .lambda _ cells | .fexpr cells =>
      let (g, free) := allocGen1Cell free
      let (gs, free) := copyToGen1ListGenerations free cells
      (g :: gs, free)
  | .array cells =>
      let (g, free) := allocGen1Cell free
      (g :: copyCellListGenerations cells, free)
  | _ =>
      let (g, free) := allocGen1Cell free
      ([g], free)

def copyToGen1ListGenerations (free : List Generation) :
    List Cell → List Generation × List Generation
  | [] => ([], free)
  | cell :: cells =>
      let (gs, free) :=
        -- an element is a cell of its own, also where it is `nil`
        if isNilOrTrue cell then allocGen1Cells 1 free
        else copyToGen1Generations free cell
      let (gs', free) := copyToGen1ListGenerations free cells
      (gs ++ gs', free)

end

mutual

/-- How many cells `copyToGen1` takes from the free ones. -/
def gen1Cells : Cell → Nat
  | .nil | .true_ => 0
  | .quote cell => gen1Cells cell + 1
  | .expression cells | .lambda _ cells | .fexpr cells => gen1CellsList cells + 1
  | _ => 1

def gen1CellsList : List Cell → Nat
  | [] => 0
  | cell :: cells => (if isNilOrTrue cell then 1 else gen1Cells cell) + gen1CellsList cells

end

mutual

/-- There is an array with elements in a cell. -/
def hasElements : Cell → Bool
  | .quote cell => hasElements cell
  | .expression cells => hasElementsList cells
  | .lambda _ cells => hasElementsList cells
  | .fexpr cells => hasElementsList cells
  | .array cells => !cells.isEmpty
  | _ => false

def hasElementsList : List Cell → Bool
  | [] => false
  | cell :: cells => hasElements cell || hasElementsList cells

end

/-- `compileLambda` returns bytecode, or it has copied a bigint wrongly before. -/
def Accepts (ctx : CompileContext) (lambda : List Cell) : Prop :=
  (∃ bc, compileLambda ctx lambda = .value bc) ∨
    compileLambda ctx lambda = .undefined ∧ ∃ v ∈ lambdaLiterals lambda, losesDigits v = true

/-- Where the cells of the constants lie that `addConstant` puts into a pool for some
literals.  What is copied for one that the pool has comes back, but for what lies in the
nursery: `deleteList` does not free that. -/
def constantGenerations (same : Cell → Cell → Bool) :
    List Generation → List Cell → List Cell → List (List Generation)
  | _, _, [] => []
  | free, pool, val :: vals =>
      let (cells, free) := copyToGen1Generations free val
      if pool.any (same · val) then
        constantGenerations same (cells.filter (· = .gen1) ++ free) pool vals
      else cells :: constantGenerations same free (pool ++ [val]) vals

/-- Each literal that the pool has not finds no nursery cell among the free cells that its
copy takes. -/
def FindsGen1 (same : Cell → Cell → Bool) :
    List Generation → List Cell → List Cell → Prop
  | _, _, [] => True
  | free, pool, val :: vals =>
      let (cells, free) := allocGen1Cells (gen1Cells val) free
      if pool.any (same · val) then
        FindsGen1 same (cells.filter (· = .gen1) ++ free) pool vals
      else .gen0 ∉ cells ∧ FindsGen1 same free (pool ++ [val]) vals

/-- An object of the memory that a lambda has been compiled to, and whose constants no
step since has edited, as long as it is not freed. -/
inductive Unedited (ctx : CompileContext) (lambda : List Cell) : Heap → Nat → Prop where
  | mk {h₀ h h' : Heap} {i : Nat} {path : List Nat} {aux : Option Nat}
      {cs : List HeapCell} {selfSymbol : Option Symbol} {context : CompileContext}
      {symbols : List Symbol} (hstart : h₀ = Heap.start context symbols)
      (hbefore : Heap.Run (fun _ _ => True) h₀ h)
      (hcell : h.cellAt i path = some (.lambda aux cs))
      (hcontents : HeapCell.plainList cs = lambda)
      (hctx : { h.context with selfSymbol := selfSymbol } = ctx)
      (hsince : Heap.Run (fun g => g.SparesConstants h.objects.length)
        (h.compile i path selfSymbol cs) h')
      (hlive : h'.valid h.objects.length = true) :
      Unedited ctx lambda h' h.objects.length

/-- From these constants the `OP_CONST` for each literal pushes an identical cell. -/
def Pushes (bc : Bytecode) (lambda constants : List Cell) : Prop :=
  List.Forall₂ (fun i v => ∃ k, constants[i]? = some k ∧ SameCell k v)
    (constantIndices bc.code) (lambdaLiterals lambda)

/-- Each literal is copied whole, no constant has a part in the nursery, and the
`OP_CONST` for each literal pushes an identical cell, from what the compiler made and from
what is in the memory at any later time. -/
def ConstantsSurvive (ctx : CompileContext) (free : List Generation)
    (lambda : List Cell) : Prop :=
  (∀ v ∈ lambdaLiterals lambda, copyToGen1 v = .value v) ∧
    ∀ bc, compileLambda ctx lambda = .value bc →
      (∀ cells ∈ constantGenerations (comparesEqual ctx.runtime) free []
        (lambdaLiterals lambda), .gen0 ∉ cells) ∧
      Pushes bc lambda bc.constants ∧
      ∀ h b, Unedited ctx lambda h b →
        Pushes bc lambda ((h.constants b).map HeapCell.plain)

theorem copyToGen1_eq_iff {cell : Cell} :
    copyToGen1 cell = .value cell ↔ losesDigits cell = false := by
  unfold copyToGen1
  split <;> simp_all

section Copies

theorem gen0_mem_copyCell (cell : Cell) : .gen0 ∈ copyCellGenerations cell := by
  cases cell <;> simp [copyCellGenerations]

mutual

theorem gen1_notMem_copyCell (cell : Cell) : .gen1 ∉ copyCellGenerations cell := by
  cases cell with
  | quote c =>
      have ih := gen1_notMem_copyCell c
      simpa [copyCellGenerations] using ih
  | expression l | lambda _ l | fexpr l | array l =>
      have ih := gen1_notMem_copyCellList l
      simpa [copyCellGenerations] using ih
  | _ => simp [copyCellGenerations]

theorem gen1_notMem_copyCellList (cells : List Cell) :
    .gen1 ∉ copyCellListGenerations cells := by
  cases cells with
  | nil => simp [copyCellListGenerations]
  | cons c cells =>
      simp [copyCellListGenerations, gen1_notMem_copyCell c,
        gen1_notMem_copyCellList cells]

end

theorem allocGen1Cells_add (m n : Nat) (free : List Generation) :
    allocGen1Cells (m + n) free =
      ((allocGen1Cells m free).1 ++ (allocGen1Cells n (allocGen1Cells m free).2).1,
        (allocGen1Cells n (allocGen1Cells m free).2).2) := by
  induction m generalizing free with
  | zero => simp [allocGen1Cells]
  | succ m ih =>
      rw [Nat.add_right_comm]
      simp only [allocGen1Cells, ih, List.cons_append]

/-- Cells that have been copied, by the free cells that it took: nothing else comes from
the blocks, and the rest are elements of arrays. -/
structure Copies (n : Nat) (arrays : Bool) (free : List Generation)
    (r : List Generation × List Generation) : Prop where
  left : r.2 = (allocGen1Cells n free).2
  gen1 : r.1.filter (· = .gen1) = (allocGen1Cells n free).1.filter (· = .gen1)
  gen0 : .gen0 ∈ r.1 ↔ arrays = true ∨ .gen0 ∈ (allocGen1Cells n free).1

theorem copies_alloc (n : Nat) (free : List Generation) :
    Copies n false free (allocGen1Cells n free) := ⟨rfl, rfl, by simp⟩

theorem Copies.cons {n : Nat} {arrays : Bool} {free : List Generation}
    {r : List Generation × List Generation}
    (h : Copies n arrays (allocGen1Cell free).2 r) :
    Copies (n + 1) arrays free ((allocGen1Cell free).1 :: r.1, r.2) where
  left := h.left
  gen1 := by rw [allocGen1Cells, List.filter_cons, List.filter_cons, h.gen1]
  gen0 := by
    rw [allocGen1Cells, List.mem_cons, List.mem_cons, h.gen0]
    exact or_left_comm

theorem Copies.append {m n : Nat} {a b : Bool} {free : List Generation}
    {r r' : List Generation × List Generation} (h : Copies m a free r)
    (h' : Copies n b r.2 r') : Copies (m + n) (a || b) free (r.1 ++ r'.1, r'.2) where
  left := by rw [allocGen1Cells_add, h'.left, h.left]
  gen1 := by
    rw [allocGen1Cells_add, List.filter_append, List.filter_append, h.gen1, h'.gen1,
      h.left]
  gen0 := by
    rw [allocGen1Cells_add, List.mem_append, List.mem_append, h.gen0, h'.gen0, h.left,
      Bool.or_eq_true]
    tauto

mutual

theorem copyToGen1_copies (free : List Generation) (cell : Cell) :
    Copies (gen1Cells cell) (hasElements cell) free
      (copyToGen1Generations free cell) := by
  cases cell with
  | nil | true_ => exact copies_alloc 0 free
  | quote c => exact (copyToGen1_copies _ c).cons
  | expression l | lambda _ l | fexpr l => exact (copyToGen1List_copies _ l).cons
  | array l =>
      have helements : Copies 0 (!l.isEmpty) (allocGen1Cell free).2
          (copyCellListGenerations l, (allocGen1Cell free).2) := by
        refine ⟨rfl, ?_, ?_⟩
        · rw [allocGen1Cells, List.filter_nil, List.filter_eq_nil_iff]
          intro g hg hgen1
          rw [of_decide_eq_true hgen1] at hg
          exact gen1_notMem_copyCellList l hg
        · cases l with
          | nil => simp [copyCellListGenerations, allocGen1Cells]
          | cons c l => simp [copyCellListGenerations, gen0_mem_copyCell c]
      exact helements.cons
  | _ => exact (copies_alloc 0 _).cons

theorem copyToGen1List_copies (free : List Generation) (cells : List Cell) :
    Copies (gen1CellsList cells) (hasElementsList cells) free
      (copyToGen1ListGenerations free cells) := by
  cases cells with
  | nil => exact copies_alloc 0 free
  | cons c cells =>
      by_cases hc : isNilOrTrue c = true
      · have hnone : hasElements c = false := by cases c <;> first | rfl | cases hc
        rw [copyToGen1ListGenerations, gen1CellsList, hasElementsList, hnone, if_pos hc,
          if_pos hc]
        exact (copies_alloc 1 free).append (copyToGen1List_copies _ cells)
      · rw [copyToGen1ListGenerations, gen1CellsList, hasElementsList, if_neg hc,
          if_neg hc]
        exact (copyToGen1_copies free c).append (copyToGen1List_copies _ cells)

end

mutual

theorem hasElements_unnamed (cell : Cell) : hasElements (unnamed cell) = hasElements cell := by
  cases cell with
  | quote c => exact hasElements_unnamed c
  | expression l | lambda _ l | fexpr l => exact hasElementsList_unnamed l
  | array l => cases l <;> rfl
  | _ => rfl

theorem hasElementsList_unnamed (cells : List Cell) :
    hasElementsList (unnamedList cells) = hasElementsList cells := by
  cases cells with
  | nil => rfl
  | cons c cells =>
      simp only [unnamedList, hasElementsList, hasElements_unnamed c,
        hasElementsList_unnamed cells]

end

theorem SameCell.hasElements_eq {k v : Cell} (h : SameCell k v) :
    hasElements k = hasElements v := by
  rw [← hasElements_unnamed k, h, hasElements_unnamed]

theorem sameCell_equivalence : Equivalence SameCell :=
  ⟨fun _ => rfl, Eq.symm, Eq.trans⟩

theorem length_unnamedList (cells : List Cell) :
    (unnamedList cells).length = cells.length := by
  induction cells with
  | nil => rfl
  | cons c cells ih => simp [unnamedList, ih]

mutual

/-- `compareCells` does not see for which symbols lambdas were compiled. -/
theorem compareCells_unnamed (rt : Runtime) (k v : Cell) :
    compareCells rt (unnamed k) v = compareCells rt k v := by
  cases k with
  | quote c =>
      cases v with
      | quote d => exact compareCells_unnamed rt c d
      | _ => rfl
  | expression l =>
      cases v with
      | expression r => exact compareLists_unnamed rt l r
      | _ => rfl
  | lambda _ l =>
      cases v with
      | lambda _ r => exact compareLists_unnamed rt l r
      | _ => rfl
  | fexpr l =>
      cases v with
      | fexpr r => exact compareLists_unnamed rt l r
      | _ => rfl
  | array l =>
      cases v with
      | array r =>
          simp only [unnamed, compareCells, length_unnamedList, compareLists_unnamed rt l r]
      | _ => rfl
  | _ => rfl

theorem compareLists_unnamed (rt : Runtime) (l r : List Cell) :
    compareLists rt (unnamedList l) r = compareLists rt l r := by
  cases l with
  | nil => rfl
  | cons c l =>
      cases r with
      | nil => rfl
      | cons d r =>
          simp only [unnamedList, compareLists, compareCells_unnamed rt c d,
            compareLists_unnamed rt l r]

end

theorem SameCell.comparesEqual_eq (rt : Runtime) {k k' : Cell} (h : SameCell k k') (v : Cell) :
    comparesEqual rt k v = comparesEqual rt k' v := by
  unfold comparesEqual
  rw [← compareCells_unnamed rt k, h, compareCells_unnamed]

mutual

theorem unnamed_unnamed (cell : Cell) : unnamed (unnamed cell) = unnamed cell := by
  cases cell with
  | quote c => exact congrArg Cell.quote (unnamed_unnamed c)
  | expression l => exact congrArg Cell.expression (unnamedList_unnamedList l)
  | lambda _ l => exact congrArg (Cell.lambda none) (unnamedList_unnamedList l)
  | fexpr l => exact congrArg Cell.fexpr (unnamedList_unnamedList l)
  | array l => exact congrArg Cell.array (unnamedList_unnamedList l)
  | _ => rfl

theorem unnamedList_unnamedList (cells : List Cell) :
    unnamedList (unnamedList cells) = unnamedList cells := by
  cases cells with
  | nil => rfl
  | cons c cells =>
      rw [unnamedList, unnamedList, unnamed_unnamed c, unnamedList_unnamedList cells]

end

mutual

theorem plain_ofCell (cell : Cell) : (HeapCell.ofCell cell).plain = unnamed cell := by
  cases cell with
  | quote c => exact congrArg Cell.quote (plain_ofCell c)
  | expression l => exact congrArg Cell.expression (plainList_ofCells l)
  | lambda _ l => exact congrArg (Cell.lambda none) (plainList_ofCells l)
  | fexpr l => exact congrArg Cell.fexpr (plainList_ofCells l)
  | array l => exact congrArg Cell.array (plainList_ofCells l)
  | _ => rfl

theorem plainList_ofCells (cells : List Cell) :
    HeapCell.plainList (HeapCell.ofCells cells) = unnamedList cells := by
  cases cells with
  | nil => rfl
  | cons c cells =>
      rw [HeapCell.ofCells, HeapCell.plainList, unnamedList, plain_ofCell c,
        plainList_ofCells cells]

end

/-- A cell in memory is the same as the one it was made from. -/
theorem sameCell_inMemory (cell : Cell) : SameCell (HeapCell.ofCell cell).plain cell := by
  rw [SameCell, plain_ofCell, unnamed_unnamed]

end Copies

section Allocation

variable {same : Cell → Cell → Bool}

theorem internAll_cons (pool : List Cell) (val : Cell) (vals : List Cell) :
    (internAll same pool (val :: vals)).2 =
      (internAll same (intern same pool val).2 vals).2 := by
  rw [← List.singleton_append, internAll_append]
  rfl

/-- A constant with elements of arrays has cells in the nursery. -/
theorem gen0_mem_constantGenerations {vals : List Cell} {k : Cell}
    (free : List Generation) (pool : List Cell)
    (hk : k ∈ (internAll same pool vals).2) (helements : hasElements k = true) :
    k ∈ pool ∨ ∃ cells ∈ constantGenerations same free pool vals, .gen0 ∈ cells := by
  induction vals generalizing free pool with
  | nil => exact .inl hk
  | cons val vals ih =>
      rw [internAll_cons] at hk
      simp only [constantGenerations, ← List.isSome_find?]
      rcases intern_cases same pool val with
        ⟨found, hfind, hpool, -⟩ | ⟨hfind, hpool, -⟩
      · rw [hpool] at hk
        rw [if_pos (by rw [hfind]; rfl)]
        exact ih _ pool hk
      · rw [hpool] at hk
        rw [if_neg (by simp [hfind])]
        rcases ih (copyToGen1Generations free val).2 _ hk with
          hk | ⟨cells, hcells, hgen0⟩
        · rcases List.mem_append.mp hk with hk | hk
          · exact .inl hk
          · obtain rfl := List.mem_singleton.mp hk
            refine .inr ⟨_, List.mem_cons_self, ?_⟩
            exact (copyToGen1_copies free k).gen0.mpr (.inl helements)
        · exact .inr ⟨cells, List.mem_cons_of_mem _ hcells, hgen0⟩

/-- Without elements of arrays it is the free cells alone that matter. -/
theorem findsGen1_iff {vals : List Cell} (free : List Generation) (pool : List Cell)
    (hvals : ∀ v ∈ vals, hasElements v = false) :
    (∀ cells ∈ constantGenerations same free pool vals, .gen0 ∉ cells) ↔
      FindsGen1 same free pool vals := by
  induction vals generalizing free pool with
  | nil => simp [constantGenerations, FindsGen1]
  | cons val vals ih =>
      obtain ⟨hval, hrest⟩ := List.forall_mem_cons.mp hvals
      have hcopies := copyToGen1_copies free val
      rw [hval] at hcopies
      simp only [constantGenerations, FindsGen1]
      split
      · rw [hcopies.gen1, hcopies.left]
        exact ih _ pool hrest
      · rw [List.forall_mem_cons, hcopies.left, ih _ _ hrest, hcopies.gen0]
        simp

end Allocation

variable {ctx : CompileContext} {lambda : List Cell} {bc : Bytecode}

/-- The pushed cells of a compiled lambda, by its literals alone. -/
theorem pushes_iff (h : compileLambda ctx lambda = .value bc) :
    Pushes bc lambda bc.constants ↔
      FirstAgrees (comparesEqual ctx.runtime) SameCell (lambdaLiterals lambda) ∧
        Wraps SameCell 65536 (fresh (comparesEqual ctx.runtime) (lambdaLiterals lambda)) := by
  obtain ⟨hpool, hplaces⟩ := compileLambda_literals h
  rw [Pushes, hplaces, hpool, List.forall₂_map_left_iff]
  exact kept_iff_firstAgrees sameCell_equivalence
    fun k k' v hsame => hsame.comparesEqual_eq ctx.runtime v

/-- An object whose constants no step has edited has those that the compiler made. -/
theorem Unedited.constants {h : Heap} {b : Nat} (hunedited : Unedited ctx lambda h b)
    (hbc : compileLambda ctx lambda = .value bc) :
    (h.constants b).map HeapCell.plain =
      bc.constants.map fun c => (HeapCell.ofCell c).plain := by
  obtain ⟨rfl, hbefore, hcell, rfl, rfl, hsince, hlive⟩ := hunedited
  have hpooled := Heap.pooled_run hbefore
  have hmade := Heap.bytecode_compile hpooled hcell hbc
  have hlt := Heap.lt_of_bytecode hmade
  have hnow := (Heap.bytecode_run hsince hlt hlive).trans hmade
  exact Heap.constants_of_bytecode hnow

/-- What is pushed later is the same. -/
theorem Pushes.later {h : Heap} {b : Nat} (hpushes : Pushes bc lambda bc.constants)
    (hunedited : Unedited ctx lambda h b)
    (hbc : compileLambda ctx lambda = .value bc) :
    Pushes bc lambda ((h.constants b).map HeapCell.plain) := by
  rw [hunedited.constants hbc]
  refine hpushes.imp fun i v hk => ?_
  obtain ⟨k, hk, hsame⟩ := hk
  refine ⟨(HeapCell.ofCell k).plain, by rw [List.getElem?_map, hk]; rfl, ?_⟩
  exact sameCell_equivalence.trans (sameCell_inMemory k) hsame

/-- What is pushed for a literal with elements of arrays has them. -/
theorem hasElements_of_pushes (hpushes : Pushes bc lambda bc.constants)
    (hbc : compileLambda ctx lambda = .value bc) {free : List Generation}
    (hold : ∀ cells ∈ constantGenerations (comparesEqual ctx.runtime) free []
      (lambdaLiterals lambda), .gen0 ∉ cells) :
    ∀ v ∈ lambdaLiterals lambda, hasElements v = false := by
  have hall : List.Forall₂ (fun _ v => hasElements v = false)
      (constantIndices bc.code) (lambdaLiterals lambda) := by
    refine hpushes.imp fun i v hk => ?_
    obtain ⟨k, hk, hsame⟩ := hk
    by_contra helements
    have hmem := List.mem_of_getElem? hk
    rw [(compileLambda_literals hbc).1] at hmem
    rw [← hsame.hasElements_eq, Bool.not_eq_false] at helements
    rcases gen0_mem_constantGenerations free [] hmem helements with
      hnil | ⟨cells, hcells, hgen0⟩
    · cases hnil
    · exact hold cells hcells hgen0
  exact ((List.forall₂_and_left (R := fun _ _ => True) _ _).mp
    (hall.flip.imp fun _ _ h => ⟨h, trivial⟩)).1

/-- The constants of a lambda survive compilation exactly if `copyToGen1` copies every
bigint whole, no array has elements, the first literal that compares equal to a later one
is identical to it, what is stored past the range of the operand is identical to what its
index leads to, and no new literal finds a nursery cell among the free cells. -/
theorem constants_survive_iff (h : Accepts ctx lambda) (free : List Generation) :
    ConstantsSurvive ctx free lambda ↔
      (∀ v ∈ lambdaLiterals lambda, losesDigits v = false) ∧
      (∀ v ∈ lambdaLiterals lambda, hasElements v = false) ∧
      FirstAgrees (comparesEqual ctx.runtime) SameCell (lambdaLiterals lambda) ∧
      Wraps SameCell 65536 (fresh (comparesEqual ctx.runtime) (lambdaLiterals lambda)) ∧
      FindsGen1 (comparesEqual ctx.runtime) free [] (lambdaLiterals lambda) := by
  have hcopies : (∀ v ∈ lambdaLiterals lambda, copyToGen1 v = .value v) ↔
      ∀ v ∈ lambdaLiterals lambda, losesDigits v = false :=
    forall₂_congr fun _ _ => copyToGen1_eq_iff
  unfold ConstantsSurvive
  rw [hcopies]
  refine and_congr_right fun hwhole => ?_
  obtain ⟨bc, hbc⟩ : ∃ bc, compileLambda ctx lambda = .value bc := by
    rcases h with h | ⟨-, v, hv, hloses⟩
    · exact h
    · rw [hwhole v hv] at hloses
      cases hloses
  constructor
  · intro hall
    obtain ⟨hold, hpushes, -⟩ := hall bc hbc
    have helements := hasElements_of_pushes hpushes hbc hold
    obtain ⟨hagrees, hwraps⟩ := (pushes_iff hbc).mp hpushes
    exact ⟨helements, hagrees, hwraps, (findsGen1_iff free [] helements).mp hold⟩
  · rintro ⟨helements, hagrees, hwraps, hfinds⟩ bc' hbc'
    obtain rfl := Outcome.value.inj (hbc.symm.trans hbc')
    have hpushes := (pushes_iff hbc).mpr ⟨hagrees, hwraps⟩
    exact ⟨(findsGen1_iff free [] helements).mpr hfinds, hpushes,
      fun _ _ hunedited => hpushes.later hunedited hbc⟩

/-- `(fn () "a" '(x "a"))`. -/
def distinctFn : List Cell :=
  [.expression [], .string [97],
    .quote (.expression [.symbol (mainSymbol "x"), .string [97]])]

theorem distinctFn_literals : lambdaLiterals distinctFn =
    [.string [97], .expression [.symbol (mainSymbol "x"), .string [97]]] := rfl

theorem distinctFn_fresh (rt : Runtime) :
    fresh (comparesEqual rt) (lambdaLiterals distinctFn) = lambdaLiterals distinctFn := rfl

theorem distinctFn_compiles (ctx : CompileContext) :
    ∃ bc, compileLambda ctx distinctFn = .value bc := ⟨_, rfl⟩

theorem distinctFn_agrees (rt : Runtime) :
    FirstAgrees (comparesEqual rt) SameCell (lambdaLiterals distinctFn) := by
  intro before val hpre k hk
  rw [distinctFn_literals] at hpre
  obtain _ | ⟨a, _ | ⟨b, before⟩⟩ := before
  · cases hk
  · simp only [List.cons_append, List.nil_append, List.cons_prefix_cons] at hpre
    obtain ⟨rfl, rfl, -⟩ := hpre
    cases hk
  · simp at hpre

/-- Four free cells are enough, so that the nursery cell behind them stays. -/
theorem distinctFn_survives : ConstantsSurvive startupContext
    [.gen1, .gen1, .gen1, .gen1, .gen0] distinctFn := by
  refine (constants_survive_iff (.inl (distinctFn_compiles startupContext)) _).mpr
    ⟨by decide, by decide, distinctFn_agrees _, fun i v hv => ?_,
      by decide, by decide, trivial⟩
  rw [distinctFn_fresh] at hv ⊢
  have hi : i < 2 := (List.getElem?_eq_some_iff.mp hv).1
  rw [Nat.mod_eq_of_lt (by omega)]
  exact ⟨v, hv, rfl⟩

/-- `5.0`. -/
def fiveFloat : Binary64 := ⟨0x4014000000000000⟩

/-- `(fn () 5 5.0)`. -/
def mergedFn : List Cell := [.expression [], .long 5, .float fiveFloat]

theorem fiveFloat_compares : compareCells exactRuntime (.long 5#64) (.float fiveFloat) =
    .value 0 := by
  have hfloats : compareFloats exactRuntime (.long 5#64) (.float fiveFloat) = 0 := by
    decide +kernel
  exact congrArg Outcome.value hfloats

theorem mergedFn_compiles : ∃ bc, compileLambda startupContext mergedFn = .value bc ∧
    bc.constants = [.long 5] ∧ constantIndices bc.code = [0, 0] := by
  have hcompile : ∃ bc, compileLambda startupContext mergedFn = .value bc := by
    simp [compileLambda, mergedFn, compileParams, compileBody, compileExpr, emitConstant,
      addConstant, copyToGen1, losesDigits, findConstant, emitOp, emitByte, emitUint16,
      fiveFloat_compares, startupContext]
  obtain ⟨bc, hbc⟩ := hcompile
  have hequal : comparesEqual exactRuntime (.long 5#64) (.float fiveFloat) = true := by
    rw [comparesEqual, fiveFloat_compares]
    rfl
  obtain ⟨hconstants, hindices⟩ := compileLambda_literals hbc
  refine ⟨bc, hbc, ?_, ?_⟩
  · rw [hconstants]
    simp [mergedFn, lambdaLiterals, bodyLiterals, literals, internAll, intern, hequal,
      startupContext]
  · rw [hindices]
    simp [mergedFn, lambdaLiterals, bodyLiterals, literals, internAll, intern, hequal,
      startupContext]

/-- The integer is pushed for the float. -/
theorem mergedFn_loses : Accepts startupContext mergedFn ∧
    ¬ ConstantsSurvive startupContext [] mergedFn := by
  obtain ⟨bc, hbc, hconstants, hindices⟩ := mergedFn_compiles
  refine ⟨.inl ⟨bc, hbc⟩, fun hsurvive => ?_⟩
  obtain ⟨-, hpushes, -⟩ := hsurvive.2 bc hbc
  rw [Pushes, hindices, hconstants] at hpushes
  obtain _ | ⟨-, _ | ⟨hfloat, -⟩⟩ := hpushes
  obtain ⟨k, hk, hsame⟩ := hfloat
  obtain rfl := Option.some.inj hk
  cases hsame

end NewLispNeo
