/-
`replace` of a list against the replacement of its elements one by one.
-/
import NewLispNeo.Replace
import NewLispNeo.Startup

namespace NewLispNeo

open Linked (Chain)

variable {W ε : Type}

/-- A list with other free cells, and `nilCell` as the interpreter starts with it. -/
structure ReplaceMemory.IsReady (m : ReplaceMemory) (x : Address) (kind : ListKind)
    (cells : List Address) : Prop where
  list : m.pool.IsListOf x kind cells
  free : FreeCells m.free x cells
  next_nilCell : m.pool.next nilCell = nilCell
  value_nilCell : m.value nilCell = .nil

/-- The comparator is a value on the result stack. -/
def FuncCell.IsTemporary : FuncCell → Prop
  | .function _ isTemporary => isTemporary = true
  | _ => False

/-- `replace` returns the list `x` with the elements `values`, and `$count` is
`count`. -/
def Replaces (I : ReplaceEvaluator W ε) (rt : Runtime)
    (replaceString : Address → Effect ε (ReplaceMemory × W) Address) (fuel : Nat)
    (key : Cell) (params : Option (Cell × Option Cell)) (m : ReplaceMemory) (w : W)
    (x : Address) (kind : ListKind) (values : List Cell) (count : Nat) : Prop :=
  ∃ m' w' cells',
    p_replace I rt replaceString fuel false key x params (m, w) = .value x (m', w') ∧
      m'.pool.IsListOf x kind cells' ∧ cells'.map m'.value = values ∧ m'.count = count

section

variable {I : ReplaceEvaluator W ε} {rt : Runtime}
  {replaceString : Address → Effect ε (ReplaceMemory × W) Address} {key : Cell}
  {params : Option (Cell × Option Cell)} {func : FuncCell}
  {compare : Cell → Effect ε W Bool} {replace : Option (Cell → Effect ε W Evaluated)}
  {m : ReplaceMemory} {w w₁ w' : W} {fuel : Nat} {x first : Address} {kind : ListKind}
  {cells : List Address} {values : List Cell} {count : Nat}

theorem FuncCell.cleanup_cases (func : FuncCell) :
    (func.cleanup = func ∧ ¬ func.IsTemporary) ∨
      (func.cleanup = .deleted ∧ func.IsTemporary) := by
  cases func with
  | null => exact .inl ⟨rfl, id⟩
  | deleted => exact .inl ⟨rfl, id⟩
  | function f isTemporary =>
      cases isTemporary with
      | true => exact .inr ⟨rfl, rfl⟩
      | false => exact .inl ⟨rfl, Bool.false_ne_true⟩

/-- The memory that `COMPARE_START` finds. -/
def ReplaceMemory.atStart (m : ReplaceMemory) (x : Address) : ReplaceMemory :=
  { m with count := 0, pool := m.pool.setAux x nilCell }

theorem p_replace_eq (hfirst : m.pool.contents x = .list kind first)
    (hfunc : ∀ m, evaluateFunc I (params.bind Prod.snd) (m, w) = .value func (m, w₁)) :
    p_replace I rt replaceString fuel false key x params (m, w) =
      (replaceStart I rt key (params.map Prod.fst) x kind fuel first func >>= fun _ s =>
        .value x ({ s.1 with it := nilCell }, s.2)) (m.atStart x, w₁) := by
  simp only [p_replace, hfirst, if_false, Bool.false_eq_true]
  exact Effect.bind_of_value (hfunc _)

/-- The list that the start and the loop leave is the one that `replace` returns. -/
theorem replaces_of_start (hfirst : m.pool.contents x = .list kind first)
    (hfunc : ∀ m, evaluateFunc I (params.bind Prod.snd) (m, w) = .value func (m, w₁))
    (hstart : ∃ m' w' cells', replaceStart I rt key (params.map Prod.fst) x kind fuel first
      func (m.atStart x, w₁) = .value () (m', w') ∧ m'.pool.IsListOf x kind cells' ∧
        cells'.map m'.value = values ∧ m'.count = count) :
    Replaces I rt replaceString fuel key params m w x kind values count := by
  obtain ⟨m', w', cells', hstart, hlist, hvalues, hcount⟩ := hstart
  refine ⟨{ m' with it := nilCell }, w', cells', ?_, hlist, hvalues, hcount⟩
  rw [p_replace_eq hfirst hfunc]
  exact Effect.bind_of_value hstart

theorem replaces_value (hfirst : m.pool.contents x = .list kind first)
    (hfunc : ∀ m, evaluateFunc I (params.bind Prod.snd) (m, w) = .value func (m, w₁))
    (h : Replaces I rt replaceString fuel key params m w x kind values count) :
    ∃ m' w' cells', replaceStart I rt key (params.map Prod.fst) x kind fuel first func
      (m.atStart x, w₁) = .value () (m', w') ∧ m'.pool.IsListOf x kind cells' ∧
        cells'.map m'.value = values ∧ m'.count = count := by
  obtain ⟨m', w', cells', hvalue, hlist, hvalues, hcount⟩ := h
  rw [p_replace_eq hfirst hfunc] at hvalue
  obtain ⟨⟨⟩, ⟨m₁, w₂⟩, hstart, heq⟩ := Effect.bind_eq_value_iff.mp hvalue
  cases heq
  exact ⟨m₁, w₂, cells', hstart, hlist, hvalues, hcount⟩

/-- A list with elements is replaced, the comparator lasting long enough. -/
theorem replaces_of_ne_nil (hready : m.IsReady x kind cells) (hne : cells ≠ [])
    (hfuel : cells.length < fuel)
    (hfunc : ∀ m, evaluateFunc I (params.bind Prod.snd) (m, w) = .value func (m, w₁))
    (h : Evaluates I rt key (params.map Prod.fst) func compare replace)
    (hspec : replaceElements compare replace (cells.map m.value) w₁ =
      .value (values, count) w')
    (htemporary : func.IsTemporary → cells.length ≤ 2) :
    Replaces I rt replaceString fuel key params m w x kind values count := by
  obtain ⟨⟨first, hfirst, hchain⟩, hx⟩ := hready.list
  obtain ⟨list, rest, rfl⟩ := List.exists_cons_of_ne_nil hne
  obtain rfl := (Linked.Chain.cons_iff.mp hchain).1
  have hshort : func.cleanup = func ∨ rest.length ≤ 1 := by
    rcases func.cleanup_cases with ⟨hcleanup, -⟩ | ⟨-, hfunc⟩
    · exact .inl hcleanup
    · exact .inr (Nat.le_of_succ_le_succ (htemporary hfunc))
  obtain ⟨m', cells', hstart, hlist, hvalues, hcount⟩ :=
    replaceStart_run (m := m.atStart x) h hshort hfirst hchain hready.next_nilCell
      hready.free hx hfuel hspec
  refine replaces_of_start hfirst hfunc ⟨m', w', cells', hstart, hlist, hvalues, ?_⟩
  rw [hcount]
  exact Nat.zero_add count

/-- An empty list: `COMPARE_START` compares the key with `nilCell`. -/
theorem replaces_of_nil (hready : m.IsReady x kind []) (hfuel : 1 < fuel)
    (hfunc : ∀ m, evaluateFunc I (params.bind Prod.snd) (m, w) = .value func (m, w₁))
    (h : Evaluates I rt key (params.map Prod.fst) func compare replace)
    (hcompare : compare .nil w₁ = .value false w') :
    Replaces I rt replaceString fuel key params m w x kind [] 0 := by
  obtain ⟨⟨first, hfirst, hchain⟩, hx⟩ := hready.list
  obtain rfl := Linked.Chain.nil_iff.mp hchain
  obtain ⟨fuel, rfl⟩ := Nat.exists_eq_succ_of_ne_zero
    (Nat.ne_of_gt (Nat.lt_of_succ_lt hfuel))
  have hvalue : compare ((m.atStart x).value nilCell) w₁ = .value false w' := by
    change compare (m.value nilCell) w₁ = _
    rw [hready.value_nilCell, hcompare]
  refine replaces_of_start hfirst hfunc ⟨m.atStart x, w', [], ?_, ?_, rfl, rfl⟩
  · rw [replaceStart_keep h hvalue]
    exact replaceLoop_end hready.next_nilCell (Nat.lt_of_succ_lt_succ hfuel)
  · exact ⟨⟨nilCell, hfirst, hchain⟩, hx⟩

/-- Where the start returns, the comparison and the replacement have returned. -/
theorem replaceStart_inv {repCell : Option Cell} {list : Address} {s : ReplaceMemory × W}
    (h : Evaluates I rt key repCell func compare replace)
    (hstart : replaceStart I rt key repCell x kind (fuel + 1) list func (m, w) =
      .value () s) :
    ∃ b w₁, compare (m.value list) w = .value b w₁ ∧
      (b = true → ∀ repExpr, repCell = some repExpr → ∃ r result w₂,
        replace = some r ∧ r (m.value list) w₁ = .value result w₂) := by
  have hbind : (compareFunc I rt key list func >>= _) (m, w) = .value () s := hstart
  obtain ⟨b, s₁, hcompare, hrest⟩ := Effect.bind_eq_value_iff.mp hbind
  rw [h.compare] at hcompare
  obtain ⟨w₁, hvalue, rfl⟩ := Effect.second_eq_value_iff.mp hcompare
  refine ⟨b, w₁, hvalue, ?_⟩
  rintro rfl repExpr rfl
  obtain ⟨r, hr, heval⟩ := h.replace repExpr rfl
  have hbind' : (replacement I repExpr list >>= _) (m.countUp, w₁) = .value () s := hrest
  obtain ⟨new, s₂, hnew, -⟩ := Effect.bind_eq_value_iff.mp hbind'
  have hbind'' : (I.evaluateExpression repExpr >>= _) ({ m.countUp with it := list }, w₁) =
    .value new s₂ := hnew
  obtain ⟨result, s₃, hresult, -⟩ := Effect.bind_eq_value_iff.mp hbind''
  rw [heval] at hresult
  obtain ⟨w₂, hrvalue, -⟩ := Effect.second_eq_value_iff.mp hresult
  exact ⟨r, result, w₂, hr, hrvalue⟩

/-- A key that equals `nil` is counted in an empty list. -/
theorem compare_of_replaces_nil (hready : m.IsReady x kind []) (hfuel : 1 < fuel)
    (hfunc : ∀ m, evaluateFunc I (params.bind Prod.snd) (m, w) = .value func (m, w₁))
    (h : Evaluates I rt key (params.map Prod.fst) func compare replace)
    (hreplaces : Replaces I rt replaceString fuel key params m w x kind [] 0) :
    ∃ w', compare .nil w₁ = .value false w' := by
  obtain ⟨⟨first, hfirst, hchain⟩, hx⟩ := hready.list
  obtain rfl := Linked.Chain.nil_iff.mp hchain
  obtain ⟨fuel, rfl⟩ := Nat.exists_eq_succ_of_ne_zero
    (Nat.ne_of_gt (Nat.lt_of_succ_lt hfuel))
  have hfuel' : 0 < fuel := Nat.lt_of_succ_lt_succ hfuel
  obtain ⟨m', w', cells', hstart, -, -, hcount⟩ := replaces_value hfirst hfunc hreplaces
  have hnil : (m.atStart x).value nilCell = .nil := hready.value_nilCell
  obtain ⟨b, w₂, hcompare, hreplace⟩ := replaceStart_inv h hstart
  cases b with
  | false => exact ⟨w₂, hnil ▸ hcompare⟩
  | true =>
      -- one match is counted
      exfalso
      cases hrep : params.map Prod.fst with
      | none =>
          rw [hrep] at h hstart
          have hnext : (m.atStart x).pool.next nilCell = nilCell := hready.next_nilCell
          have hend : ((m.atStart x).removeFirst x kind nilCell).pool.next nilCell =
              nilCell := by
            change Function.update m.pool.next nilCell nilCell nilCell = nilCell
            exact Function.update_self nilCell nilCell m.pool.next
          rw [replaceStart_remove h hcompare, hnext, if_neg (fun h => h rfl),
            replaceLoop_end hend hfuel'] at hstart
          cases hstart
          exact Nat.one_ne_zero hcount
      | some repExpr =>
          obtain ⟨r, result, w₃, hr, hresult⟩ := hreplace rfl repExpr hrep
          subst hr
          rw [hrep] at h hstart
          obtain ⟨new, free, hnew⟩ := List.exists_cons_of_ne_nil hready.free.ne_nil
          have hnew' : (m.atStart x).free = new :: free := hnew
          have hne : new ≠ nilCell := fun heq =>
            hready.free.nilCell_notMem (by rw [hnew, heq]; exact List.mem_cons_self)
          have hend : ((m.atStart x).exchangeFirst x kind nilCell new free
              result.cell).pool.next new = nilCell := by
            refine (Function.update_of_ne hne ..).trans ?_
            refine (Function.update_self ..).trans ?_
            exact (Function.update_of_ne (Ne.symm hne) ..).trans hready.next_nilCell
          rw [replaceStart_replace h hnew' hcompare hresult,
            replaceLoop_end hend hfuel'] at hstart
          cases hstart
          exact Nat.one_ne_zero hcount

/-- A comparator from the result stack is gone for the third element. -/
theorem length_of_replaces (hready : m.IsReady x kind cells) (hfuel : cells.length < fuel)
    (hfunc : ∀ m, evaluateFunc I (params.bind Prod.snd) (m, w) = .value func (m, w₁))
    (h : Evaluates I rt key (params.map Prod.fst) func compare replace)
    (hspec : replaceElements compare replace (cells.map m.value) w₁ =
      .value (values, count) w')
    (hreplaces : Replaces I rt replaceString fuel key params m w x kind values count)
    (htemporary : func.IsTemporary) : cells.length ≤ 2 := by
  by_contra hlong
  obtain ⟨hcleanup, -⟩ : func.cleanup = .deleted ∧ func.IsTemporary := by
    rcases func.cleanup_cases with ⟨-, hnot⟩ | hcleanup
    · exact absurd htemporary hnot
    · exact hcleanup
  have hsome : params.map Prod.fst ≠ none := by
    intro hnone
    rw [Option.map_eq_none_iff] at hnone
    have hnull := hfunc m
    rw [hnone] at hnull
    cases hnull
    exact htemporary
  obtain ⟨⟨first, hfirst, hchain⟩, hx⟩ := hready.list
  obtain ⟨list, cell, third, rest, rfl⟩ : ∃ a b c l, cells = a :: b :: c :: l := by
    rcases cells with _ | ⟨a, _ | ⟨b, _ | ⟨c, l⟩⟩⟩
    · exact absurd (Nat.zero_le 2) hlong
    · exact absurd (Nat.le_succ 1) hlong
    · exact absurd (Nat.le_refl 2) hlong
    · exact ⟨a, b, c, l, rfl⟩
  obtain rfl := (Linked.Chain.cons_iff.mp hchain).1
  obtain ⟨fuel, rfl⟩ : ∃ k, fuel = k + 1 + 1 + 1 := by
    refine ⟨fuel - 3, ?_⟩
    simp only [List.length_cons] at hfuel
    omega
  obtain ⟨m', w'', cells', hstart, -⟩ := replaces_value hfirst hfunc hreplaces
  -- the first two elements
  obtain ⟨⟨v, b⟩, w₂, hstep, hspec⟩ := Effect.bind_eq_value_iff.mp hspec
  obtain ⟨⟨values', count'⟩, w₃, hrest, hspec⟩ := Effect.bind_eq_value_iff.mp hspec
  obtain ⟨⟨v', b'⟩, w₄, hstep', -⟩ := Effect.bind_eq_value_iff.mp hrest
  obtain ⟨v, rfl⟩ : ∃ u, v = some u := by
    cases v with
    | none => exact absurd (replaceElement_none h hstep).2.1 hsome
    | some v => exact ⟨v, rfl⟩
  obtain ⟨list', m₁, hstart', -, hchain₁, hfree₁, hx₁, hvalues₁, -, -⟩ :=
    replaceStart_step (m := m.atStart x) (fuel + 1 + 1) h hfirst hchain hready.free hx hstep
  have hcell : m₁.value cell = m.value cell := (List.cons.inj hvalues₁).1
  rw [← hcell] at hstep'
  have hxcell : x ≠ cell := fun heq => hx₁ (by rw [heq]; simp)
  obtain ⟨list'', m₂, hloop, hchain₂, -⟩ :=
    replaceLoop_step (fuel + 1) h hchain₁ hfree₁ hxcell hstep'
  obtain ⟨hnext, hthird, -⟩ :=
    Linked.Chain.cons_iff.mp (Linked.Chain.cons_iff.mp hchain₂).2.2
  rw [hstart', hloop, hcleanup, replaceLoop_deleted hnext (hnext ▸ hthird)] at hstart
  cases hstart

/-- `replace` replaces or removes the elements that compare as the key, in order and
each once, exactly when the key does not equal `nil` in an empty list and a comparator
from the result stack has at most two elements to compare. -/
theorem replaces_iff (hready : m.IsReady x kind cells) (hfuel : cells.length + 1 < fuel)
    (hfunc : ∀ m, evaluateFunc I (params.bind Prod.snd) (m, w) = .value func (m, w₁))
    (h : Evaluates I rt key (params.map Prod.fst) func compare replace)
    (hspec : replaceElements compare replace (cells.map m.value) w₁ =
      .value (values, count) w') :
    Replaces I rt replaceString fuel key params m w x kind values count ↔
      (cells = [] → ∃ w', compare .nil w₁ = .value false w') ∧
        (func.IsTemporary → cells.length ≤ 2) := by
  have hfuel' : cells.length < fuel := Nat.lt_of_succ_lt hfuel
  constructor
  · intro hreplaces
    refine ⟨?_, length_of_replaces hready hfuel' hfunc h hspec hreplaces⟩
    rintro rfl
    cases hspec
    exact compare_of_replaces_nil hready hfuel hfunc h hreplaces
  · rintro ⟨hnil, htemporary⟩
    by_cases hne : cells = []
    · obtain ⟨w'', hcompare⟩ := hnil hne
      subst hne
      cases hspec
      exact replaces_of_nil hready hfuel hfunc h hcompare
    · exact replaces_of_ne_nil hready hne hfuel' hfunc h hspec htemporary

end

/-- What a missing comparator does: `compareCells`. -/
def compareByCells (I : ReplaceEvaluator W ε) (rt : Runtime) (key v : Cell) :
    Effect ε W Bool := fun w =>
  match compareCells rt key v with
  | .value c => .value (decide (c = 0)) w
  | .error e => .error (I.ofError e) w
  | .undefined => .undefined
  | .timeout => .timeout

theorem compareFunc_null (I : ReplaceEvaluator W ε) (rt : Runtime) (key : Cell)
    (m : ReplaceMemory) (w : W) (a : Address) :
    compareFunc I rt key a .null (m, w) =
      Effect.second (compareByCells I rt key (m.value a)) (m, w) := by
  simp only [compareFunc, compareByCells, Effect.second]
  cases compareCells rt key (m.value a) with
  | value c => rfl
  | error e => rfl
  | undefined => rfl
  | timeout => rfl

/-- A replacement that evaluates to itself, without a comparator. -/
theorem evaluates_null {I : ReplaceEvaluator W ε} (rt : Runtime) (key : Cell)
    {repExpr v : Cell}
    (h : ∀ m w, I.evaluateExpression repExpr (m, w) = .value ⟨v, false⟩ (m, w)) :
    Evaluates I rt key (some repExpr) .null (compareByCells I rt key)
      (some fun _ => pure ⟨v, false⟩) := by
  refine ⟨compareFunc_null I rt key, fun hnone => ?_, fun repExpr' heq =>
    ⟨_, rfl, fun m w => ?_⟩⟩
  · cases hnone
  · cases heq
    exact h m w

/-- An evaluator that takes every cell for itself. -/
def quotingEvaluator : ReplaceEvaluator Unit Error where
  evaluateExpression c := pure ⟨c, false⟩
  ofError e := e
  ofListError _ := .listExpected

/-- The cell 2 is the list of the cells 3 and 4, which hold 1 and 2, the cell 5 an empty
list. -/
def replacePair : ReplaceMemory where
  pool :=
    { contents := fun a => if a = 2 then .list .expression 3
        else if a = 5 then .list .expression nilCell else .other ()
      aux := fun _ => nilCell
      next := fun a => if a = 3 then 4 else nilCell }
  value a := if a = 3 then .long 1 else if a = 4 then .long 2 else .nil
  free := [6]
  it := nilCell
  count := 0

theorem replacePair_isReady : replacePair.IsReady 2 .expression [3, 4] := by
  refine ⟨⟨⟨3, rfl, ?_⟩, by decide⟩, ⟨by decide, by decide, fun a ha => ?_, by decide,
    by decide⟩, rfl, rfl⟩
  · simp only [Linked.Chain.cons_iff, Linked.Chain.nil_iff]
    decide
  · rcases List.mem_cons.mp ha with rfl | ha
    · decide
    · obtain rfl := List.mem_singleton.mp ha
      decide

theorem replacePair_isReady_nil : replacePair.IsReady 5 .expression [] :=
  ⟨⟨⟨nilCell, rfl, Linked.Chain.nil_iff.mpr rfl⟩, List.not_mem_nil⟩,
    ⟨by decide, by decide, fun _ ha => absurd ha List.not_mem_nil, by decide,
      by decide⟩, rfl, rfl⟩

theorem replacePair_elements :
    replaceElements (compareByCells quotingEvaluator exactRuntime (.long 1))
      (some fun _ => pure ⟨.long 9, false⟩) (([3, 4] : List Address).map replacePair.value)
        () = .value ([.long 9, .long 2], 1) () := rfl

/-- `(replace 1 '(1 2) 9)` -/
theorem replaces_pair : Replaces quotingEvaluator exactRuntime
      (fun _ => Effect.raise .listExpected) 4 (.long 1) (some (.long 9, none)) replacePair
      () 2 .expression [.long 9, .long 2] 1 ↔
    (([3, 4] : List Address) = [] → ∃ w',
        compareByCells quotingEvaluator exactRuntime (.long 1) .nil () = .value false w') ∧
      (FuncCell.null.IsTemporary → ([3, 4] : List Address).length ≤ 2) :=
  replaces_iff replacePair_isReady (by decide) (fun _ => rfl)
    (evaluates_null exactRuntime (.long 1) fun _ _ => rfl)
    replacePair_elements

/-- `(replace nil '() 9)` is `(9)`. -/
theorem not_replaces_empty :
    replaceElements (compareByCells quotingEvaluator exactRuntime .nil)
        (some fun _ => pure ⟨.long 9, false⟩) [] () = .value ([], 0) () ∧
      ¬ Replaces quotingEvaluator exactRuntime (fun _ => Effect.raise .listExpected) 4
        .nil (some (.long 9, none)) replacePair () 5 .expression [] 0 := by
  refine ⟨rfl, fun h => ?_⟩
  obtain ⟨w', hcompare⟩ := compare_of_replaces_nil replacePair_isReady_nil (by decide)
    (fun _ => rfl) (evaluates_null exactRuntime .nil fun _ _ => rfl) h
  cases hcompare

end NewLispNeo
