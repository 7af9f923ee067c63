/-
`replace` in a list: the first element, a run of leading elements that are removed and
the elements behind another one are unlinked each in its own way.
-/
import NewLispNeo.CellPool
import NewLispNeo.Compare
import NewLispNeo.Effect

namespace NewLispNeo

open Linked (Chain)

variable {W ε : Type}

/-- What `replace` reads and writes: the links of the list, what its elements hold, the
free cells that new elements are taken from, `$it` and `$count`. -/
structure ReplaceMemory where
  pool : CellPool Unit
  value : Address → Cell
  free : List Address
  it : Address
  count : Nat

/-- A value, on the result stack when it is a new one. -/
structure Evaluated where
  cell : Cell
  isTemporary : Bool

/-- `funcCell`: `NULL`, a function, or one that `cleanupResults` has deleted. -/
inductive FuncCell where
  | null
  | function (func : Cell) (isTemporary : Bool)
  | deleted

/-- After `cleanupResults`. -/
def FuncCell.cleanup : FuncCell → FuncCell
  | .function _ true => .deleted
  | func => func

/-- `evaluateExpression` and its errors, on the memory and the rest `W` of the
interpreter's state. -/
structure ReplaceEvaluator (W ε : Type) where
  evaluateExpression : Cell → Effect ε (ReplaceMemory × W) Evaluated
  ofError : Error → ε
  ofListError : ListError → ε

namespace ReplaceMemory

variable (m : ReplaceMemory)

def setNext (cell next : Address) : ReplaceMemory :=
  { m with pool := m.pool.setNext cell next }

def setContents (cell : Address) (kind : ListKind) (first : Address) : ReplaceMemory :=
  { m with pool := m.pool.setContents cell (.list kind first) }

/-- `countCell->contents++` -/
def countUp : ReplaceMemory := { m with count := m.count + 1 }

/-- The element decoupled and deleted; `deleteList` passes over `nilCell`. -/
def delete (cell : Address) : ReplaceMemory :=
  { m.setNext cell nilCell with free := if cell = nilCell then m.free else cell :: m.free }

/-- The free cell `cell` with a value. -/
def fill (cell : Address) (free : List Address) (v : Cell) : ReplaceMemory :=
  { m.setNext cell nilCell with free := free, value := Function.update m.value cell v }

end ReplaceMemory

section Primitives

variable (I : ReplaceEvaluator W ε) (rt : Runtime)

/-- `copyCell` of a value that has been evaluated. -/
def copyValue (v : Cell) : Effect ε (ReplaceMemory × W) Address := fun (m, w) =>
  match m.free with
  | [] => .error (I.ofListError .notEnoughMemory) (m, w)
  | cell :: free => .value cell (m.fill cell free v, w)

/-- Whether `compareFunc(key, right, funcCell)` is 0. -/
def compareFunc (key : Cell) (right : Address) (func : FuncCell) :
    Effect ε (ReplaceMemory × W) Bool := fun (m, w) =>
  match func with
  | .null =>
      match compareCells rt key (m.value right) with
      | .value c => .value (decide (c = 0)) (m, w)
      | .error e => .error (I.ofError e) (m, w)
      | .undefined => .undefined
      | .timeout => .timeout
  | .function func _ =>
      (I.evaluateExpression (.expression [func, .quote key, .quote (m.value right)]) >>=
        fun result => pure (!isNil result.cell)) (m, w)
  | .deleted => .undefined

/-- The value of the replacement for the element `cell`, in a new cell. -/
def replacement (repCell : Cell) (cell : Address) :
    Effect ε (ReplaceMemory × W) Address := fun (m, w) =>
  (I.evaluateExpression repCell >>= fun result => copyValue I result.cell)
    ({ m with it := cell }, w)

/-- What the loop does with a matching element `cell` behind `list`: the new `list`. -/
def replaceNext (repCell : Option Cell) (list cell : Address) :
    Effect ε (ReplaceMemory × W) Address := fun (m, w) =>
  match repCell with
  | some repCell =>
      (replacement I repCell cell >>= fun new => fun (m, w) =>
        let m := m.setNext list new
        .value new ((m.setNext new (m.pool.next cell)).delete cell, w)) (m.countUp, w)
  | none =>
      .value list ((m.countUp.setNext list (m.pool.next cell)).delete cell, w)

/-- `while(list->next != nilCell)` -/
def replaceLoop (key : Cell) (repCell : Option Cell) :
    Nat → Address → FuncCell → Effect ε (ReplaceMemory × W) Unit
  | 0, _, _ => fun _ => .timeout
  | fuel + 1, list, func => fun (m, w) =>
      let cell := m.pool.next list
      if cell = nilCell then .value () (m, w)
      else
        (compareFunc I rt key cell func >>= fun matched =>
          if matched then
            replaceNext I repCell list cell >>= fun list =>
              replaceLoop key repCell fuel list func.cleanup
          else replaceLoop key repCell fuel cell func.cleanup) (m, w)

/-- The label `COMPARE_START` and what follows, for the element `list` at the start of
the list `cell`. -/
def replaceStart (key : Cell) (repCell : Option Cell) (cell : Address)
    (kind : ListKind) : Nat → Address → FuncCell → Effect ε (ReplaceMemory × W) Unit
  | 0, _, _ => fun _ => .timeout
  | fuel + 1, list, func =>
      compareFunc I rt key list func >>= fun matched =>
        if matched then
          match repCell with
          | some repExpr => fun (m, w) =>
              (replacement I repExpr list >>= fun new => fun (m, w) =>
                let m := m.setContents cell kind new
                replaceLoop I rt key repCell fuel new func
                  ((m.setNext new (m.pool.next list)).delete list, w)) (m.countUp, w)
          | none => fun (m, w) =>
              let next := m.pool.next list
              let m := (m.countUp.setContents cell kind next).delete list
              if next ≠ nilCell then
                replaceStart key repCell cell kind fuel next func (m, w)
              else replaceLoop I rt key repCell fuel next func (m, w)
        else replaceLoop I rt key repCell fuel list func

/-- `funcCell`, from the expression behind the replacement. -/
def evaluateFunc (func : Option Cell) : Effect ε (ReplaceMemory × W) FuncCell :=
  match func with
  | none => pure .null
  | some func => I.evaluateExpression func >>= fun result =>
      pure (.function result.cell result.isTemporary)

/-- `p_replace` of the cell that the second parameter evaluated to, with the copied key
and the replacement and comparator expressions; the branch for strings is left to
`replaceString`. -/
def p_replace (replaceString : Address → Effect ε (ReplaceMemory × W) Address)
    (fuel : Nat) (isProtected : Bool) (key : Cell) (cell : Address)
    (params : Option (Cell × Option Cell)) : Effect ε (ReplaceMemory × W) Address :=
  fun (m, w) =>
    if isProtected then .error (I.ofListError .symbolProtected) (m, w)
    else
      let m := { m with count := 0 }
      match m.pool.contents cell with
      | .list kind first =>
          (evaluateFunc I (params.bind Prod.snd) >>= fun func =>
            replaceStart I rt key (params.map Prod.fst) cell kind fuel first func >>=
              fun _ => fun (m, w) => .value cell ({ m with it := nilCell }, w))
            ({ m with pool := m.pool.setAux cell nilCell }, w)
      | .string _ => replaceString cell (m, w)
      | .other _ => .error (I.ofListError .listOrStringExpected) (m, w)

end Primitives

/-! ### The memory -/

/-- The free cells are others than those of the list `x`. -/
structure FreeCells (free : List Address) (x : Address) (cells : List Address) : Prop where
  ne_nil : free ≠ []
  nodup : free.Nodup
  disjoint : ∀ a ∈ cells, a ∉ free
  nilCell_notMem : nilCell ∉ free
  notMem : x ∉ free

namespace FreeCells

variable {free cells : List Address} {x a b : Address}

theorem mono {cells' : List Address} (h : FreeCells free x cells)
    (hsub : cells' ⊆ cells) : FreeCells free x cells' :=
  ⟨h.ne_nil, h.nodup, fun a ha => h.disjoint a (hsub ha), h.nilCell_notMem, h.notMem⟩

/-- A cell of the list is freed. -/
theorem give (h : FreeCells free x (a :: cells)) (ha : a ∉ cells) (hnil : a ≠ nilCell)
    (hx : x ≠ a) : FreeCells (a :: free) x cells := by
  have hfree : a ∉ free := h.disjoint a List.mem_cons_self
  refine ⟨List.cons_ne_nil a free, List.nodup_cons.mpr ⟨hfree, h.nodup⟩,
    fun b hb hmem => ?_, ?_, ?_⟩
  · rcases List.mem_cons.mp hmem with rfl | hmem
    · exact ha hb
    · exact h.disjoint b (List.mem_cons_of_mem a hb) hmem
  · rw [List.mem_cons, not_or]
    exact ⟨hnil.symm, h.nilCell_notMem⟩
  · rw [List.mem_cons, not_or]
    exact ⟨hx, h.notMem⟩

/-- A free cell takes the place of one of the list. -/
theorem exchange (h : FreeCells (b :: free) x (a :: cells)) (ha : a ∉ cells)
    (hnil : a ≠ nilCell) (hx : x ≠ a) : FreeCells (a :: free) x (b :: cells) := by
  have hgiven := h.give ha hnil hx
  obtain ⟨hb, hnodup⟩ := List.nodup_cons.mp h.nodup
  have hab : a ∉ b :: free := h.disjoint a List.mem_cons_self
  rw [List.mem_cons, not_or] at hab
  refine ⟨List.cons_ne_nil a free, List.nodup_cons.mpr ⟨hab.2, hnodup⟩,
    fun c hc hmem => ?_, fun hmem => ?_, fun hmem => ?_⟩
  · rcases List.mem_cons.mp hc with rfl | hc
    · rcases List.mem_cons.mp hmem with rfl | hmem
      · exact hab.1 rfl
      · exact hb hmem
    · refine hgiven.disjoint c hc ?_
      rcases List.mem_cons.mp hmem with rfl | hmem
      · exact List.mem_cons_self
      · exact List.mem_cons_of_mem a (List.mem_cons_of_mem b hmem)
  · refine hgiven.nilCell_notMem ?_
    rcases List.mem_cons.mp hmem with rfl | hmem
    · exact List.mem_cons_self
    · exact List.mem_cons_of_mem a (List.mem_cons_of_mem b hmem)
  · refine hgiven.notMem ?_
    rcases List.mem_cons.mp hmem with rfl | hmem
    · exact List.mem_cons_self
    · exact List.mem_cons_of_mem a (List.mem_cons_of_mem b hmem)

end FreeCells

/-! ### The elements one by one -/

section Elements

variable (compare : Cell → Effect ε W Bool)
  (replace : Option (Cell → Effect ε W Evaluated))

/-- What becomes of the element `e`, and whether it matched. -/
def replaceElement (e : Cell) : Effect ε W (Option Cell × Bool) :=
  compare e >>= fun matched =>
    if matched then
      match replace with
      | none => pure (none, true)
      | some replace => replace e >>= fun result => pure (some result.cell, true)
    else pure (some e, false)

/-- Every matching element is replaced by its replacement or removed, in order; the
number of them. -/
def replaceElements : List Cell → Effect ε W (List Cell × Nat)
  | [] => pure ([], 0)
  | e :: l =>
      replaceElement compare replace e >>= fun r =>
        replaceElements l >>= fun rest =>
          pure (r.1.toList ++ rest.1, r.2.toNat + rest.2)

end Elements

section Steps

variable {compare : Cell → Effect ε W Bool}
  {replace : Option (Cell → Effect ε W Evaluated)} {e : Cell} {w w' : W}

/-- An element stays, is removed or is replaced. -/
theorem replaceElement_cases {v : Option Cell} {b : Bool}
    (h : replaceElement compare replace e w = .value (v, b) w') :
    (compare e w = .value false w' ∧ v = some e ∧ b = false) ∨
    (compare e w = .value true w' ∧ replace = none ∧ v = none ∧ b = true) ∨
    ∃ r w₁ result, compare e w = .value true w₁ ∧ replace = some r ∧
      r e w₁ = .value result w' ∧ v = some result.cell ∧ b = true := by
  obtain ⟨matched, w₁, hcompare, h⟩ := Effect.bind_eq_value_iff.mp h
  cases matched with
  | false =>
      cases h
      exact .inl ⟨hcompare, rfl, rfl⟩
  | true =>
      cases replace with
      | none =>
          cases h
          exact .inr (.inl ⟨hcompare, rfl, rfl, rfl⟩)
      | some r =>
          obtain ⟨result, w₂, hresult, h⟩ := Effect.bind_eq_value_iff.mp h
          cases h
          exact .inr (.inr ⟨r, w₁, result, hcompare, rfl, hresult, rfl, rfl⟩)

end Steps

/-- What the code evaluates is `compare` and `replace`, which depend on the key and on
the element, in `$it` for the replacement, and do not touch the list. -/
structure Evaluates (I : ReplaceEvaluator W ε) (rt : Runtime) (key : Cell)
    (repCell : Option Cell) (func : FuncCell) (compare : Cell → Effect ε W Bool)
    (replace : Option (Cell → Effect ε W Evaluated)) : Prop where
  compare : ∀ m w a, compareFunc I rt key a func (m, w) =
    Effect.second (compare (m.value a)) (m, w)
  remove : repCell = none → replace = none
  replace : ∀ repExpr, repCell = some repExpr → ∃ r, replace = some r ∧
    ∀ m w, I.evaluateExpression repExpr (m, w) =
      Effect.second (r (m.value m.it)) (m, w)

/-- Only without a replacement is an element removed. -/
theorem replaceElement_none {I : ReplaceEvaluator W ε} {rt : Runtime} {key : Cell}
    {repCell : Option Cell} {func : FuncCell} {compare : Cell → Effect ε W Bool}
    {replace : Option (Cell → Effect ε W Evaluated)} {e : Cell} {b : Bool} {w w' : W}
    (h : Evaluates I rt key repCell func compare replace)
    (hstep : replaceElement compare replace e w = .value (none, b) w') :
    compare e w = .value true w' ∧ repCell = none ∧ b = true := by
  rcases replaceElement_cases hstep with ⟨-, hv, -⟩ | ⟨hcompare, hnone, -, hb⟩ |
    ⟨r, w₁, result, -, -, -, hv, -⟩
  · cases hv
  · refine ⟨hcompare, ?_, hb⟩
    cases repCell with
    | none => rfl
    | some repExpr =>
        obtain ⟨r, hr, -⟩ := h.replace repExpr rfl
        rw [hnone] at hr
        cases hr
  · cases hv

section Loop

variable {I : ReplaceEvaluator W ε} {rt : Runtime} {key : Cell} {repCell : Option Cell}
  {func : FuncCell} {compare : Cell → Effect ε W Bool}
  {replace : Option (Cell → Effect ε W Evaluated)} {m : ReplaceMemory} {w w₁ w₂ : W}
  {fuel : Nat} {list cell new : Address} {free : List Address} {result : Evaluated}
  {r : Cell → Effect ε W Evaluated}

theorem compareFunc_value (h : Evaluates I rt key repCell func compare replace)
    {b : Bool} (hcompare : compare (m.value cell) w = .value b w₁) :
    compareFunc I rt key cell func (m, w) = .value b (m, w₁) := by
  rw [h.compare, Effect.second, hcompare]

theorem replacement_value {repExpr : Cell}
    (heval : ∀ m w, I.evaluateExpression repExpr (m, w) =
      Effect.second (r (m.value m.it)) (m, w)) (hfree : m.free = new :: free)
    (hr : r (m.value cell) w = .value result w₁) :
    replacement I repExpr cell (m, w) =
      .value new ({ m with it := cell }.fill new free result.cell, w₁) := by
  have hresult : I.evaluateExpression repExpr ({ m with it := cell }, w) =
      .value result ({ m with it := cell }, w₁) := by
    rw [heval, Effect.second, hr]
  rw [replacement, Effect.bind_of_value hresult, copyValue]
  simp only [hfree]

theorem replaceLoop_keep (h : Evaluates I rt key repCell func compare replace)
    (hnext : m.pool.next list = cell) (hcell : cell ≠ nilCell)
    (hcompare : compare (m.value cell) w = .value false w₁) :
    replaceLoop I rt key repCell (fuel + 1) list func (m, w) =
      replaceLoop I rt key repCell fuel cell func.cleanup (m, w₁) := by
  simp only [replaceLoop, hnext, if_neg hcell]
  rw [Effect.bind_of_value (compareFunc_value h hcompare)]
  rfl

/-- The memory after a matching element behind `list` has been removed. -/
def ReplaceMemory.removeNext (m : ReplaceMemory) (list cell : Address) : ReplaceMemory :=
  (m.countUp.setNext list (m.pool.next cell)).delete cell

/-- The memory after a matching element behind `list` has been replaced by `new`. -/
def ReplaceMemory.exchangeNext (m : ReplaceMemory) (list cell new : Address)
    (free : List Address) (v : Cell) : ReplaceMemory :=
  let m := ({ m.countUp with it := cell }.fill new free v).setNext list new
  (m.setNext new (m.pool.next cell)).delete cell

theorem replaceLoop_remove (h : Evaluates I rt key none func compare replace)
    (hnext : m.pool.next list = cell) (hcell : cell ≠ nilCell)
    (hcompare : compare (m.value cell) w = .value true w₁) :
    replaceLoop I rt key none (fuel + 1) list func (m, w) =
      replaceLoop I rt key none fuel list func.cleanup (m.removeNext list cell, w₁) := by
  simp only [replaceLoop, hnext, if_neg hcell]
  rw [Effect.bind_of_value (compareFunc_value h hcompare)]
  rfl

theorem replaceLoop_replace {repExpr : Cell}
    (h : Evaluates I rt key (some repExpr) func compare (some r))
    (hnext : m.pool.next list = cell) (hcell : cell ≠ nilCell)
    (hfree : m.free = new :: free)
    (hcompare : compare (m.value cell) w = .value true w₁)
    (hr : r (m.value cell) w₁ = .value result w₂) :
    replaceLoop I rt key (some repExpr) (fuel + 1) list func (m, w) =
      replaceLoop I rt key (some repExpr) fuel new func.cleanup
        (m.exchangeNext list cell new free result.cell, w₂) := by
  obtain ⟨r', hr', heval⟩ := h.replace repExpr rfl
  cases hr'
  have hreplacement : replacement I repExpr cell (m.countUp, w₁) =
      .value new ({ m.countUp with it := cell }.fill new free result.cell, w₂) :=
    replacement_value heval hfree hr
  have hnew : replaceNext I (some repExpr) list cell (m, w₁) =
      .value new (m.exchangeNext list cell new free result.cell, w₂) :=
    Effect.bind_of_value hreplacement
  simp only [replaceLoop, hnext, if_neg hcell]
  rw [Effect.bind_of_value (compareFunc_value h hcompare)]
  exact Effect.bind_of_value hnew

end Loop

/-! ### The links -/

section Links

variable {m : ReplaceMemory} {list cell new x : Address} {rest free : List Address}
  {v : Cell}

/-- Removing an element leaves the chain without it. -/
theorem removeNext_chain
    (h : Chain m.pool.next nilCell list (list :: cell :: rest)) :
    Chain (m.removeNext list cell).pool.next nilCell list (list :: rest) := by
  have hnodup := h.nodup
  obtain ⟨-, hlist, htail⟩ := Linked.Chain.cons_iff.mp h
  obtain ⟨hnext, -, hrest⟩ := Linked.Chain.cons_iff.mp htail
  obtain ⟨hlist', hnodup'⟩ := List.nodup_cons.mp hnodup
  rw [List.mem_cons, not_or] at hlist'
  have hcell := (List.nodup_cons.mp hnodup').1
  have hnextList : (m.removeNext list cell).pool.next list = m.pool.next cell := by
    refine (Function.update_of_ne hlist'.1 ..).trans ?_
    exact Function.update_self ..
  refine Linked.Chain.cons_iff.mpr ⟨rfl, hlist, ?_⟩
  rw [hnextList]
  refine hrest.congr fun a ha => ?_
  have hne : a ≠ cell := fun h => hcell (h ▸ ha)
  have hne' : a ≠ list := fun h => hlist'.2 (h ▸ ha)
  exact (Function.update_of_ne hne ..).trans (Function.update_of_ne hne' ..)

/-- Replacing an element puts the new cell in its place. -/
theorem exchangeNext_chain (h : Chain m.pool.next nilCell list (list :: cell :: rest))
    (hnew : new ∉ list :: cell :: rest) (hnil : new ≠ nilCell) :
    (m.exchangeNext list cell new free v).pool.next list = new ∧
      Chain (m.exchangeNext list cell new free v).pool.next nilCell new
        (new :: rest) := by
  have hnodup := h.nodup
  obtain ⟨-, hlist, htail⟩ := Linked.Chain.cons_iff.mp h
  obtain ⟨hnext, -, hrest⟩ := Linked.Chain.cons_iff.mp htail
  obtain ⟨hlist', hnodup'⟩ := List.nodup_cons.mp hnodup
  rw [List.mem_cons, not_or] at hlist'
  have hcell := (List.nodup_cons.mp hnodup').1
  simp only [List.mem_cons, not_or] at hnew
  obtain ⟨hnewList, hnewCell, hnewRest⟩ := hnew
  have hnextCell : (({ m.countUp with it := cell }.fill new free v).setNext list
      new).pool.next cell = m.pool.next cell :=
    (Function.update_of_ne (Ne.symm hlist'.1) ..).trans
      (Function.update_of_ne (Ne.symm hnewCell) ..)
  have hnextNew : (m.exchangeNext list cell new free v).pool.next new =
      m.pool.next cell := by
    refine (Function.update_of_ne hnewCell ..).trans ?_
    exact (Function.update_self ..).trans hnextCell
  constructor
  · refine (Function.update_of_ne hlist'.1 ..).trans ?_
    refine (Function.update_of_ne (Ne.symm hnewList) ..).trans ?_
    exact Function.update_self ..
  · refine Linked.Chain.cons_iff.mpr ⟨rfl, hnil, ?_⟩
    rw [hnextNew]
    refine hrest.congr fun a ha => ?_
    have hne : a ≠ cell := fun h => hcell (h ▸ ha)
    have hne' : a ≠ list := fun h => hlist'.2 (h ▸ ha)
    have hne'' : a ≠ new := fun h => hnewRest (h ▸ ha)
    refine (Function.update_of_ne hne ..).trans ?_
    refine (Function.update_of_ne hne'' ..).trans ?_
    exact (Function.update_of_ne hne' ..).trans (Function.update_of_ne hne'' ..)

end Links

/-- What the loop does behind the cell `list`: `rest` becomes `rest'`, with the values
`values`, and nothing else changes but the free cells. -/
structure ReplacedBehind (m m' : ReplaceMemory) (list : Address) (rest rest' : List Address)
    (values : List Cell) (count : Nat) : Prop where
  chain : Chain m'.pool.next nilCell list (list :: rest')
  values : rest'.map m'.value = values
  count : m'.count = m.count + count
  mem : ∀ a ∈ rest', a ∈ rest ∨ a ∈ m.free
  next : ∀ a, a ∉ list :: rest → a ∉ m.free → m'.pool.next a = m.pool.next a
  value : ∀ a, a ∉ rest → a ∉ m.free → m'.value a = m.value a
  contents : m'.pool.contents = m.pool.contents

namespace ReplacedBehind

variable {m m' : ReplaceMemory} {list cell new x : Address} {rest rest' free : List Address}
  {values : List Cell} {v : Cell} {count : Nat}

theorem nil (h : Chain m.pool.next nilCell list [list]) :
    ReplacedBehind m m list [] [] [] 0 :=
  ⟨h, rfl, rfl, fun _ ha => absurd ha List.not_mem_nil, fun _ _ _ => rfl,
    fun _ _ _ => rfl, rfl⟩

theorem keep (hchain : Chain m.pool.next nilCell list (list :: cell :: rest))
    (hfree : FreeCells m.free x (list :: cell :: rest))
    (h : ReplacedBehind m m' cell rest rest' values count) :
    ReplacedBehind m m' list (cell :: rest) (cell :: rest') (m.value cell :: values)
      count := by
  have hnodup := hchain.nodup
  obtain ⟨hlist, hnodup'⟩ := List.nodup_cons.mp hnodup
  obtain ⟨-, hlistNil, htail⟩ := Linked.Chain.cons_iff.mp hchain
  have hnext := (Linked.Chain.cons_iff.mp htail).1
  have hcell : cell ∉ m.free := hfree.disjoint cell (by simp)
  have hvalue := h.value cell (List.nodup_cons.mp hnodup').1 hcell
  refine ⟨?_, ?_, h.count, fun a ha => ?_, fun a ha hafree => ?_, fun a ha hafree => ?_,
    h.contents⟩
  · refine Linked.Chain.cons_iff.mpr ⟨rfl, hlistNil, ?_⟩
    rw [h.next list hlist (hfree.disjoint list List.mem_cons_self), hnext]
    exact h.chain
  · rw [List.map_cons, hvalue, h.values]
  · rcases List.mem_cons.mp ha with rfl | ha
    · exact .inl List.mem_cons_self
    · rcases h.mem a ha with hmem | hmem
      · exact .inl (List.mem_cons_of_mem cell hmem)
      · exact .inr hmem
  · exact h.next a (fun hmem => ha (List.mem_cons_of_mem list hmem)) hafree
  · exact h.value a (fun hmem => ha (List.mem_cons_of_mem cell hmem)) hafree

theorem free_removeNext (hcell : cell ≠ nilCell) :
    (m.removeNext list cell).free = cell :: m.free := by
  simp only [ReplaceMemory.removeNext, ReplaceMemory.delete, if_neg hcell]
  rfl

theorem free_exchangeNext (hcell : cell ≠ nilCell) :
    (m.exchangeNext list cell new free v).free = cell :: free := by
  simp only [ReplaceMemory.exchangeNext, ReplaceMemory.delete, if_neg hcell]
  rfl

theorem remove (hcell : cell ≠ nilCell)
    (h : ReplacedBehind (m.removeNext list cell) m' list rest rest' values count) :
    ReplacedBehind m m' list (cell :: rest) rest' values (1 + count) := by
  have hfree : (m.removeNext list cell).free = cell :: m.free := free_removeNext hcell
  refine ⟨h.chain, h.values, ?_, fun a ha => ?_, fun a ha hafree => ?_,
    fun a ha hafree => ?_, h.contents⟩
  · rw [h.count]
    exact Nat.add_assoc m.count 1 count
  · rcases h.mem a ha with hmem | hmem
    · exact .inl (List.mem_cons_of_mem cell hmem)
    · rw [hfree] at hmem
      rcases List.mem_cons.mp hmem with rfl | hmem
      · exact .inl List.mem_cons_self
      · exact .inr hmem
  · simp only [List.mem_cons, not_or] at ha
    have hrest : a ∉ list :: rest := by
      rw [List.mem_cons, not_or]
      exact ⟨ha.1, ha.2.2⟩
    rw [h.next a hrest (by rw [hfree, List.mem_cons, not_or]; exact ⟨ha.2.1, hafree⟩)]
    exact (Function.update_of_ne ha.2.1 ..).trans (Function.update_of_ne ha.1 ..)
  · simp only [List.mem_cons, not_or] at ha
    rw [h.value a ha.2 (by rw [hfree, List.mem_cons, not_or]; exact ⟨ha.1, hafree⟩)]
    rfl

theorem exchange (hchain : Chain m.pool.next nilCell list (list :: cell :: rest))
    (hfree : FreeCells m.free x (list :: cell :: rest)) (hnew : m.free = new :: free)
    (h : ReplacedBehind (m.exchangeNext list cell new free v) m' new rest rest' values
      count) :
    ReplacedBehind m m' list (cell :: rest) (new :: rest') (v :: values) (1 + count) := by
  have hnodup := hchain.nodup
  obtain ⟨hlist, hnodup'⟩ := List.nodup_cons.mp hnodup
  obtain ⟨-, hlistNil, htail⟩ := Linked.Chain.cons_iff.mp hchain
  have hcell := (Linked.Chain.cons_iff.mp htail).2.1
  have hnewMem : new ∈ m.free := hnew ▸ List.mem_cons_self
  have hfresh : new ∉ list :: cell :: rest := fun hmem => hfree.disjoint new hmem hnewMem
  have hnil : new ≠ nilCell := fun heq => hfree.nilCell_notMem (heq ▸ hnewMem)
  have hlinks : (m.exchangeNext list cell new free v).pool.next list = new :=
    (exchangeNext_chain hchain hfresh hnil).1
  have hfree' : (m.exchangeNext list cell new free v).free = cell :: free :=
    free_exchangeNext hcell
  have hsub : ∀ a, a ∉ m.free → a ≠ cell →
      a ∉ (m.exchangeNext list cell new free v).free := by
    intro a ha hne
    rw [hnew, List.mem_cons, not_or] at ha
    rw [hfree', List.mem_cons, not_or]
    exact ⟨hne, ha.2⟩
  have hnewFree : new ∉ (m.exchangeNext list cell new free v).free := by
    have hnodupFree := hfree.nodup
    rw [hnew] at hnodupFree
    rw [hfree', List.mem_cons, not_or]
    refine ⟨fun heq => hfresh ?_, (List.nodup_cons.mp hnodupFree).1⟩
    rw [heq]
    simp
  have hnewRest : new ∉ rest := fun hmem =>
    hfresh (List.mem_cons_of_mem _ (List.mem_cons_of_mem _ hmem))
  refine ⟨?_, ?_, ?_, fun a ha => ?_, fun a ha hafree => ?_, fun a ha hafree => ?_,
    h.contents⟩
  · refine Linked.Chain.cons_iff.mpr ⟨rfl, hlistNil, ?_⟩
    have hlistNew : list ∉ new :: rest := by
      rw [List.mem_cons, not_or]
      refine ⟨fun heq => hfresh ?_, fun hmem => hlist (List.mem_cons_of_mem cell hmem)⟩
      rw [← heq]
      exact List.mem_cons_self
    have hlistCell : list ≠ cell := fun heq => hlist (heq ▸ List.mem_cons_self)
    rw [h.next list hlistNew (hsub list (hfree.disjoint list List.mem_cons_self)
      hlistCell), hlinks]
    exact h.chain
  · rw [List.map_cons, h.values, h.value new hnewRest hnewFree]
    exact congrArg (· :: values) (Function.update_self ..)
  · rw [h.count]
    exact Nat.add_assoc m.count 1 count
  · rcases List.mem_cons.mp ha with rfl | ha
    · exact .inr hnewMem
    · rcases h.mem a ha with hmem | hmem
      · exact .inl (List.mem_cons_of_mem cell hmem)
      · rw [hfree'] at hmem
        rcases List.mem_cons.mp hmem with rfl | hmem
        · exact .inl List.mem_cons_self
        · exact .inr (hnew ▸ List.mem_cons_of_mem new hmem)
  · simp only [List.mem_cons, not_or] at ha
    have hne : a ≠ new := fun heq => hafree (heq ▸ hnewMem)
    have hnewRest' : a ∉ new :: rest := by
      rw [List.mem_cons, not_or]
      exact ⟨hne, ha.2.2⟩
    rw [h.next a hnewRest' (hsub a hafree ha.2.1)]
    refine (Function.update_of_ne ha.2.1 ..).trans ?_
    refine (Function.update_of_ne hne ..).trans ?_
    exact (Function.update_of_ne ha.1 ..).trans (Function.update_of_ne hne ..)
  · simp only [List.mem_cons, not_or] at ha
    have hne : a ≠ new := fun heq => hafree (heq ▸ hnewMem)
    rw [h.value a ha.2 (hsub a hafree ha.1)]
    exact Function.update_of_ne hne ..

end ReplacedBehind

section Run

variable {I : ReplaceEvaluator W ε} {rt : Runtime} {key : Cell} {repCell : Option Cell}
  {func : FuncCell} {compare : Cell → Effect ε W Bool}
  {replace : Option (Cell → Effect ε W Evaluated)} {m : ReplaceMemory} {w w' : W}
  {fuel : Nat} {list x : Address} {rest : List Address} {values : List Cell}
  {count : Nat}

/-- One round of the loop: what comes after it stands for the rest of the elements. -/
theorem replaceLoop_step (fuel : Nat) {cell : Address} {v : Option Cell} {b : Bool} {w₁ : W}
    (h : Evaluates I rt key repCell func compare replace)
    (hchain : Chain m.pool.next nilCell list (list :: cell :: rest))
    (hfree : FreeCells m.free x (list :: cell :: rest)) (hx : x ≠ cell)
    (hstep : replaceElement compare replace (m.value cell) w = .value (v, b) w₁) :
    ∃ list' m₁, replaceLoop I rt key repCell (fuel + 1) list func (m, w) =
        replaceLoop I rt key repCell fuel list' func.cleanup (m₁, w₁) ∧
      Chain m₁.pool.next nilCell list' (list' :: rest) ∧
      FreeCells m₁.free x (list' :: rest) ∧ rest.map m₁.value = rest.map m.value ∧
      ∀ m' rest' values count, ReplacedBehind m₁ m' list' rest rest' values count →
        ∃ rest'', ReplacedBehind m m' list (cell :: rest) rest'' (v.toList ++ values)
          (b.toNat + count) := by
  have htail := (Linked.Chain.cons_iff.mp hchain).2.2
  obtain ⟨hnext, hcell, -⟩ := Linked.Chain.cons_iff.mp htail
  rw [hnext] at htail
  have hnodup := hchain.nodup
  rcases replaceElement_cases hstep with ⟨hcompare, rfl, rfl⟩ |
    ⟨hcompare, -, rfl, rfl⟩ | ⟨r, w₂, result, hcompare, hsome, hr, rfl, rfl⟩
  · refine ⟨cell, m, replaceLoop_keep h hnext hcell hcompare, htail,
      hfree.mono (List.subset_cons_self list _), rfl,
      fun m' rest' values count hreplaced => ⟨cell :: rest', ?_⟩⟩
    rw [Bool.toNat_false, Nat.zero_add]
    exact hreplaced.keep hchain hfree
  · obtain ⟨-, rfl, -⟩ := replaceElement_none h hstep
    refine ⟨list, m.removeNext list cell, replaceLoop_remove h hnext hcell hcompare,
      removeNext_chain hchain, ?_, rfl,
      fun m' rest' values count hreplaced => ⟨rest', hreplaced.remove hcell⟩⟩
    rw [ReplacedBehind.free_removeNext hcell]
    refine (hfree.mono ?_).give ?_ hcell hx
    · intro a ha
      simp only [List.mem_cons] at ha ⊢
      tauto
    · simp only [List.nodup_cons, List.mem_cons, not_or] at hnodup ⊢
      exact ⟨fun heq => hnodup.1.1 heq.symm, hnodup.2.1⟩
  · obtain ⟨repExpr, rfl⟩ : ∃ repExpr, repCell = some repExpr := by
      cases repCell with
      | none =>
          rw [h.remove rfl] at hsome
          cases hsome
      | some repExpr => exact ⟨repExpr, rfl⟩
    subst hsome
    obtain ⟨new, free, hnew⟩ := List.exists_cons_of_ne_nil hfree.ne_nil
    have hnewMem : new ∈ m.free := hnew ▸ List.mem_cons_self
    have hfresh : new ∉ list :: cell :: rest := fun hmem =>
      hfree.disjoint new hmem hnewMem
    have hnil : new ≠ nilCell := fun heq => hfree.nilCell_notMem (heq ▸ hnewMem)
    refine ⟨new, m.exchangeNext list cell new free result.cell,
      replaceLoop_replace h hnext hcell hnew hcompare hr,
      (exchangeNext_chain hchain hfresh hnil).2, ?_, ?_,
      fun m' rest' values count hreplaced =>
        ⟨new :: rest', hreplaced.exchange hchain hfree hnew⟩⟩
    · rw [ReplacedBehind.free_exchangeNext hcell]
      rw [hnew] at hfree
      refine (hfree.mono (List.subset_cons_self list _)).exchange ?_ hcell hx
      exact (List.nodup_cons.mp (List.nodup_cons.mp hnodup).2).1
    · refine List.map_congr_left fun a ha => Function.update_of_ne ?_ ..
      rintro rfl
      exact hfresh (List.mem_cons_of_mem _ (List.mem_cons_of_mem _ ha))

theorem replaceLoop_end (hnext : m.pool.next list = nilCell) (hfuel : 0 < fuel) :
    replaceLoop I rt key repCell fuel list func (m, w) = .value () (m, w) := by
  obtain ⟨fuel, rfl⟩ := Nat.exists_eq_succ_of_ne_zero (Nat.ne_of_gt hfuel)
  simp only [replaceLoop, hnext, if_true]

/-- The loop replaces the elements behind `list`; a comparator that is deleted is good
for one of them. -/
theorem replaceLoop_run (h : Evaluates I rt key repCell func compare replace)
    (hfunc : func.cleanup = func ∨ rest.length ≤ 1)
    (hchain : Chain m.pool.next nilCell list (list :: rest))
    (hfree : FreeCells m.free x (list :: rest)) (hx : x ∉ rest)
    (hfuel : rest.length < fuel)
    (hspec : replaceElements compare replace (rest.map m.value) w =
      .value (values, count) w') :
    ∃ m' rest', replaceLoop I rt key repCell fuel list func (m, w) =
      .value () (m', w') ∧ ReplacedBehind m m' list rest rest' values count := by
  induction rest generalizing list m w values count fuel with
  | nil =>
      cases hspec
      have hnext : m.pool.next list = nilCell :=
        Linked.Chain.nil_iff.mp (Linked.Chain.cons_iff.mp hchain).2.2
      exact ⟨m, [], replaceLoop_end hnext hfuel, .nil hchain⟩
  | cons cell rest ih =>
      obtain ⟨fuel, rfl⟩ := Nat.exists_eq_succ_of_ne_zero
        (Nat.ne_of_gt (Nat.lt_of_le_of_lt (Nat.zero_le _) hfuel))
      have hfuel' : rest.length < fuel := Nat.lt_of_succ_lt_succ hfuel
      obtain ⟨⟨v, b⟩, w₁, hstep, hspec⟩ := Effect.bind_eq_value_iff.mp hspec
      obtain ⟨⟨values', count'⟩, w₂, hrest, hspec⟩ := Effect.bind_eq_value_iff.mp hspec
      cases hspec
      rw [List.mem_cons, not_or] at hx
      obtain ⟨list', m₁, hloop, hchain', hfree', hvalues, hdone⟩ :=
        replaceLoop_step fuel h hchain hfree hx.1 hstep
      rw [← hvalues] at hrest
      obtain ⟨m', rest', hrun, hreplaced⟩ : ∃ m' rest',
          replaceLoop I rt key repCell fuel list' func.cleanup (m₁, w₁) =
            .value () (m', w') ∧ ReplacedBehind m₁ m' list' rest rest' values' count' := by
        rcases hfunc with hfunc | hshort
        · rw [hfunc]
          exact ih (.inl hfunc) hchain' hfree' hx.2 hfuel' hrest
        · obtain rfl : rest = [] :=
            List.eq_nil_of_length_eq_zero (Nat.le_zero.mp (Nat.le_of_succ_le_succ hshort))
          cases hrest
          have hnext : m₁.pool.next list' = nilCell :=
            Linked.Chain.nil_iff.mp (Linked.Chain.cons_iff.mp hchain').2.2
          exact ⟨m₁, [], replaceLoop_end hnext hfuel', .nil hchain'⟩
      obtain ⟨rest'', hreplaced'⟩ := hdone m' rest' values' count' hreplaced
      exact ⟨m', rest'', hloop.trans hrun, hreplaced'⟩

/-- Once the comparator is deleted, another element to compare is one too many. -/
theorem replaceLoop_deleted {cell : Address} (hnext : m.pool.next list = cell)
    (hcell : cell ≠ nilCell) :
    replaceLoop I rt key repCell (fuel + 1) list .deleted (m, w) = .undefined := by
  simp only [replaceLoop, hnext, if_neg hcell]
  exact Effect.bind_of_undefined rfl

end Run

/-! ### The first element -/

/-- The memory after the first element has been removed. -/
def ReplaceMemory.removeFirst (m : ReplaceMemory) (x : Address) (kind : ListKind)
    (list : Address) : ReplaceMemory :=
  (m.countUp.setContents x kind (m.pool.next list)).delete list

/-- The memory after the first element has been replaced by `new`. -/
def ReplaceMemory.exchangeFirst (m : ReplaceMemory) (x : Address) (kind : ListKind)
    (list new : Address) (free : List Address) (v : Cell) : ReplaceMemory :=
  let m := ({ m.countUp with it := list }.fill new free v).setContents x kind new
  (m.setNext new (m.pool.next list)).delete list

section Start

variable {I : ReplaceEvaluator W ε} {rt : Runtime} {key : Cell} {repCell : Option Cell}
  {func : FuncCell} {compare : Cell → Effect ε W Bool}
  {replace : Option (Cell → Effect ε W Evaluated)} {m : ReplaceMemory} {w w₁ w₂ w' : W}
  {fuel : Nat} {list x new : Address} {kind : ListKind} {rest free : List Address}
  {values : List Cell} {count : Nat} {result : Evaluated} {r : Cell → Effect ε W Evaluated}

theorem replaceStart_keep (h : Evaluates I rt key repCell func compare replace)
    (hcompare : compare (m.value list) w = .value false w₁) :
    replaceStart I rt key repCell x kind (fuel + 1) list func (m, w) =
      replaceLoop I rt key repCell fuel list func (m, w₁) :=
  Effect.bind_of_value (compareFunc_value h hcompare)

theorem replaceStart_remove (h : Evaluates I rt key none func compare replace)
    (hcompare : compare (m.value list) w = .value true w₁) :
    replaceStart I rt key none x kind (fuel + 1) list func (m, w) =
      if m.pool.next list ≠ nilCell then
        replaceStart I rt key none x kind fuel (m.pool.next list) func
          (m.removeFirst x kind list, w₁)
      else replaceLoop I rt key none fuel (m.pool.next list) func
        (m.removeFirst x kind list, w₁) :=
  Effect.bind_of_value (compareFunc_value h hcompare)

theorem replaceStart_replace {repExpr : Cell}
    (h : Evaluates I rt key (some repExpr) func compare (some r))
    (hfree : m.free = new :: free)
    (hcompare : compare (m.value list) w = .value true w₁)
    (hr : r (m.value list) w₁ = .value result w₂) :
    replaceStart I rt key (some repExpr) x kind (fuel + 1) list func (m, w) =
      replaceLoop I rt key (some repExpr) fuel new func
        (m.exchangeFirst x kind list new free result.cell, w₂) := by
  obtain ⟨r', hr', heval⟩ := h.replace repExpr rfl
  cases hr'
  have hreplacement : replacement I repExpr list (m.countUp, w₁) =
      .value new ({ m.countUp with it := list }.fill new free result.cell, w₂) :=
    replacement_value heval hfree hr
  exact (Effect.bind_of_value (compareFunc_value h hcompare)).trans
    (Effect.bind_of_value hreplacement)

theorem removeFirst_chain (x : Address) (kind : ListKind)
    (h : Chain m.pool.next nilCell list (list :: rest)) :
    Chain (m.removeFirst x kind list).pool.next nilCell (m.pool.next list) rest := by
  obtain ⟨hlist, -⟩ := List.nodup_cons.mp h.nodup
  obtain ⟨-, -, hrest⟩ := Linked.Chain.cons_iff.mp h
  refine hrest.congr fun a ha => Function.update_of_ne ?_ ..
  rintro rfl
  exact hlist ha

theorem exchangeFirst_chain (v : Cell) (h : Chain m.pool.next nilCell list (list :: rest))
    (hnew : new ∉ list :: rest) (hnil : new ≠ nilCell) :
    Chain (m.exchangeFirst x kind list new free v).pool.next nilCell new
      (new :: rest) := by
  obtain ⟨hlist, -⟩ := List.nodup_cons.mp h.nodup
  obtain ⟨-, -, hrest⟩ := Linked.Chain.cons_iff.mp h
  rw [List.mem_cons, not_or] at hnew
  have hnextList : (({ m.countUp with it := list }.fill new free v).setContents x kind
      new).pool.next list = m.pool.next list :=
    Function.update_of_ne (Ne.symm hnew.1) ..
  have hnextNew : (m.exchangeFirst x kind list new free v).pool.next new =
      m.pool.next list := by
    refine (Function.update_of_ne hnew.1 ..).trans ?_
    exact (Function.update_self ..).trans hnextList
  refine Linked.Chain.cons_iff.mpr ⟨rfl, hnil, ?_⟩
  rw [hnextNew]
  refine hrest.congr fun a ha => ?_
  have hne : a ≠ list := fun heq => hlist (heq ▸ ha)
  have hne' : a ≠ new := fun heq => hnew.2 (heq ▸ ha)
  refine (Function.update_of_ne hne ..).trans ?_
  exact (Function.update_of_ne hne' ..).trans (Function.update_of_ne hne' ..)

/-- A first element that stays or is replaced: the loop goes on behind it. -/
theorem replaceStart_step (fuel : Nat) {v : Cell} {b : Bool}
    (h : Evaluates I rt key repCell func compare replace)
    (hcontents : m.pool.contents x = .list kind list)
    (hchain : Chain m.pool.next nilCell list (list :: rest))
    (hfree : FreeCells m.free x (list :: rest)) (hx : x ∉ list :: rest)
    (hstep : replaceElement compare replace (m.value list) w = .value (some v, b) w₁) :
    ∃ list' m₁, replaceStart I rt key repCell x kind (fuel + 1) list func (m, w) =
        replaceLoop I rt key repCell fuel list' func (m₁, w₁) ∧
      m₁.pool.contents x = .list kind list' ∧
      Chain m₁.pool.next nilCell list' (list' :: rest) ∧
      FreeCells m₁.free x (list' :: rest) ∧ x ∉ list' :: rest ∧
      rest.map m₁.value = rest.map m.value ∧ m₁.value list' = v ∧
      m₁.count = m.count + b.toNat := by
  obtain ⟨hlist, -⟩ := List.nodup_cons.mp hchain.nodup
  have hlistNil := (Linked.Chain.cons_iff.mp hchain).2.1
  rcases replaceElement_cases hstep with ⟨hcompare, hv, rfl⟩ | ⟨-, -, hv, -⟩ |
    ⟨r, w₂, result, hcompare, rfl, hr, hv, rfl⟩
  · cases hv
    exact ⟨list, m, replaceStart_keep h hcompare, hcontents, hchain, hfree, hx, rfl, rfl,
      rfl⟩
  · cases hv
  · cases hv
    obtain ⟨repExpr, rfl⟩ : ∃ repExpr, repCell = some repExpr := by
      cases repCell with
      | none => cases h.remove rfl
      | some repExpr => exact ⟨repExpr, rfl⟩
    obtain ⟨new, free, hnew⟩ := List.exists_cons_of_ne_nil hfree.ne_nil
    have hnewMem : new ∈ m.free := hnew ▸ List.mem_cons_self
    have hfresh : new ∉ list :: rest := fun hmem => hfree.disjoint new hmem hnewMem
    have hnil : new ≠ nilCell := fun heq => hfree.nilCell_notMem (heq ▸ hnewMem)
    have hxlist : x ≠ list := fun heq => hx (heq ▸ List.mem_cons_self)
    refine ⟨new, m.exchangeFirst x kind list new free result.cell,
      replaceStart_replace h hnew hcompare hr, Function.update_self ..,
      exchangeFirst_chain _ hchain hfresh hnil, ?_, ?_, ?_, Function.update_self .., rfl⟩
    · have hfree' : (m.exchangeFirst x kind list new free result.cell).free =
          list :: free := by
        simp only [ReplaceMemory.exchangeFirst, ReplaceMemory.delete, if_neg hlistNil]
        rfl
      rw [hfree']
      rw [hnew] at hfree
      exact hfree.exchange hlist hlistNil hxlist
    · rw [List.mem_cons, not_or]
      refine ⟨fun heq => hfree.notMem (heq ▸ hnewMem), fun hmem => hx ?_⟩
      exact List.mem_cons_of_mem list hmem
    · refine List.map_congr_left fun a ha => Function.update_of_ne ?_ ..
      rintro rfl
      exact hfresh (List.mem_cons_of_mem _ ha)

/-- A list whose first element stays or is replaced. -/
theorem replaceStart_some {v : Cell} {b : Bool}
    (h : Evaluates I rt key repCell func compare replace)
    (hfunc : func.cleanup = func ∨ rest.length ≤ 1)
    (hcontents : m.pool.contents x = .list kind list)
    (hchain : Chain m.pool.next nilCell list (list :: rest))
    (hfree : FreeCells m.free x (list :: rest)) (hx : x ∉ list :: rest)
    (hfuel : rest.length < fuel)
    (hstep : replaceElement compare replace (m.value list) w = .value (some v, b) w₁)
    (hrest : replaceElements compare replace (rest.map m.value) w₁ =
      .value (values, count) w') :
    ∃ m' cells', replaceStart I rt key repCell x kind (fuel + 1) list func (m, w) =
        .value () (m', w') ∧ m'.pool.IsListOf x kind cells' ∧
      cells'.map m'.value = v :: values ∧ m'.count = m.count + (b.toNat + count) := by
  obtain ⟨list', m₁, hstart, hcontents₁, hchain₁, hfree₁, hx₁, hvalues, hv, hcount⟩ :=
    replaceStart_step fuel h hcontents hchain hfree hx hstep
  have hxrest : x ∉ rest := fun hmem => hx₁ (List.mem_cons_of_mem list' hmem)
  rw [← hvalues] at hrest
  obtain ⟨m', rest', hloop, hreplaced⟩ :=
    replaceLoop_run h hfunc hchain₁ hfree₁ hxrest hfuel hrest
  have hlist : m'.value list' = v := by
    rw [hreplaced.value list' (List.nodup_cons.mp hchain₁.nodup).1
      (hfree₁.disjoint list' List.mem_cons_self), hv]
  refine ⟨m', list' :: rest', hstart.trans hloop, ⟨⟨list', ?_, hreplaced.chain⟩,
    fun hmem => ?_⟩, ?_, ?_⟩
  · rw [hreplaced.contents, hcontents₁]
  · rcases List.mem_cons.mp hmem with heq | hmem
    · exact hx₁ (heq ▸ List.mem_cons_self)
    · rcases hreplaced.mem x hmem with hmem | hmem
      · exact hxrest hmem
      · exact hfree₁.notMem hmem
  · rw [List.map_cons, hlist, hreplaced.values]
  · rw [hreplaced.count, hcount, Nat.add_assoc]

/-- What the start finds after it has removed an element. -/
theorem removeFirst_ready (kind : ListKind)
    (hchain : Chain m.pool.next nilCell list (list :: rest))
    (hnil : m.pool.next nilCell = nilCell) (hfree : FreeCells m.free x (list :: rest))
    (hx : x ∉ list :: rest) :
    (m.removeFirst x kind list).pool.contents x = .list kind (m.pool.next list) ∧
      (m.removeFirst x kind list).pool.next nilCell = nilCell ∧
      FreeCells (m.removeFirst x kind list).free x rest := by
  obtain ⟨hlist, -⟩ := List.nodup_cons.mp hchain.nodup
  have hlistNil := (Linked.Chain.cons_iff.mp hchain).2.1
  have hxlist : x ≠ list := fun heq => hx (heq ▸ List.mem_cons_self)
  refine ⟨Function.update_self .., ?_, ?_⟩
  · exact (Function.update_of_ne (Ne.symm hlistNil) ..).trans hnil
  · have hfree' : (m.removeFirst x kind list).free = list :: m.free := by
      simp only [ReplaceMemory.removeFirst, ReplaceMemory.delete, if_neg hlistNil]
      rfl
    rw [hfree']
    exact hfree.give hlist hlistNil hxlist

/-- The start and the loop replace the elements of the list. -/
theorem replaceStart_run (h : Evaluates I rt key repCell func compare replace)
    (hfunc : func.cleanup = func ∨ rest.length ≤ 1)
    (hcontents : m.pool.contents x = .list kind list)
    (hchain : Chain m.pool.next nilCell list (list :: rest))
    (hnil : m.pool.next nilCell = nilCell)
    (hfree : FreeCells m.free x (list :: rest)) (hx : x ∉ list :: rest)
    (hfuel : rest.length + 1 < fuel)
    (hspec : replaceElements compare replace ((list :: rest).map m.value) w =
      .value (values, count) w') :
    ∃ m' cells', replaceStart I rt key repCell x kind fuel list func (m, w) =
        .value () (m', w') ∧ m'.pool.IsListOf x kind cells' ∧
      cells'.map m'.value = values ∧ m'.count = m.count + count := by
  induction rest generalizing list m w values count fuel with
  | nil =>
      obtain ⟨fuel, rfl⟩ := Nat.exists_eq_succ_of_ne_zero
        (Nat.ne_of_gt (Nat.lt_of_le_of_lt (Nat.zero_le _) hfuel))
      have hfuel' : 0 < fuel := Nat.lt_of_succ_lt_succ hfuel
      obtain ⟨⟨v, b⟩, w₁, hstep, hspec⟩ := Effect.bind_eq_value_iff.mp hspec
      obtain ⟨⟨values', count'⟩, w₂, hrest, hspec⟩ := Effect.bind_eq_value_iff.mp hspec
      cases hspec
      cases v with
      | some v =>
          exact replaceStart_some h hfunc hcontents hchain hfree hx hfuel' hstep hrest
      | none =>
          obtain ⟨hcompare, rfl, rfl⟩ := replaceElement_none h hstep
          cases hrest
          have hnext : m.pool.next list = nilCell :=
            Linked.Chain.nil_iff.mp (Linked.Chain.cons_iff.mp hchain).2.2
          obtain ⟨hcontents', hnil', -⟩ := removeFirst_ready kind hchain hnil hfree hx
          rw [hnext] at hcontents'
          refine ⟨m.removeFirst x kind list, [], ?_, ⟨⟨nilCell, hcontents', ?_⟩, ?_⟩,
            rfl, rfl⟩
          · rw [replaceStart_remove h hcompare, hnext, if_neg (fun h => h rfl)]
            exact replaceLoop_end hnil' hfuel'
          · exact Linked.Chain.nil_iff.mpr rfl
          · exact List.not_mem_nil
  | cons cell rest ih =>
      obtain ⟨fuel, rfl⟩ := Nat.exists_eq_succ_of_ne_zero
        (Nat.ne_of_gt (Nat.lt_of_le_of_lt (Nat.zero_le _) hfuel))
      have hfuel' : rest.length + 1 < fuel := Nat.lt_of_succ_lt_succ hfuel
      obtain ⟨⟨v, b⟩, w₁, hstep, hspec⟩ := Effect.bind_eq_value_iff.mp hspec
      obtain ⟨⟨values', count'⟩, w₂, hrest, hspec⟩ := Effect.bind_eq_value_iff.mp hspec
      cases hspec
      cases v with
      | some v =>
          exact replaceStart_some h hfunc hcontents hchain hfree hx hfuel' hstep hrest
      | none =>
          obtain ⟨hcompare, rfl, rfl⟩ := replaceElement_none h hstep
          obtain ⟨hnext, hcell, -⟩ :=
            Linked.Chain.cons_iff.mp (Linked.Chain.cons_iff.mp hchain).2.2
          obtain ⟨hcontents', hnil', hfree'⟩ := removeFirst_ready kind hchain hnil hfree hx
          have hchain' := removeFirst_chain x kind hchain
          rw [hnext] at hcontents' hchain'
          have hfunc' : func.cleanup = func ∨ rest.length ≤ 1 := by
            rcases hfunc with hfunc | hshort
            · exact .inl hfunc
            · exact .inr (Nat.le_trans (Nat.le_succ _) hshort)
          obtain ⟨m', cells', hstart, hcells', hvalues, hcount⟩ := ih hfunc' hcontents'
            hchain' hnil' hfree' (fun hmem => hx (List.mem_cons_of_mem list hmem))
            hfuel' hrest
          refine ⟨m', cells', ?_, hcells', hvalues, ?_⟩
          · rw [replaceStart_remove h hcompare, hnext, if_pos hcell]
            exact hstart
          · rw [hcount]
            exact Nat.add_assoc m.count 1 count'

end Start

end NewLispNeo
