/-
`sort` as a stable sort: what a list and an array have in common, and where their
comparators part.
-/
import NewLispNeo.Sorting
import NewLispNeo.Startup

namespace NewLispNeo

open BottomUp
open Linked (Chain)

variable {W ε : Type}

/-- A sequence has one list of cells. -/
theorem SortMemory.IsSequence.unique {m : SortMemory} {x : Address}
    {cells cells' : List Address} (h : m.IsSequence x cells) (h' : m.IsSequence x cells') :
    cells = cells' := by
  cases h with
  | list kind h =>
      obtain ⟨first, hfirst, hchain⟩ := h.contents
      cases h' with
      | list kind' h' =>
          obtain ⟨first', hfirst', hchain'⟩ := h'.contents
          rw [hfirst] at hfirst'
          cases hfirst'
          exact hchain.unique hchain'
      | array storage hx hvector =>
          rw [hfirst] at hx
          cases hx
  | array storage hx hvector =>
      cases h' with
      | list kind' h' =>
          obtain ⟨first', hfirst', -⟩ := h'.contents
          rw [hfirst'] at hx
          cases hx
      | array storage' hx' hvector' =>
          rw [hx] at hx'
          cases hx'
          rw [hvector] at hvector'
          cases hvector'
          rfl

section Statements

variable (I : Interpreter W ε) (rt : Runtime)

/-- `sort` of `x` returns `x` with the cells `cells'`, for an empty list a new one. -/
def SortsTo (fuel : Nat) (func : Option Cell) (m : SortMemory) (w : W) (x : Address)
    (cells' : List Address) (w' : W) : Prop :=
  ∃ r m', p_sort I rt fuel false x func (m, w) = .value r (m', w') ∧
    (r = some x ∧ m'.IsSequence x cells' ∨ r = none ∧ cells' = [])

/-- Every comparison of two elements returns, while the elements are what they are. -/
def CompareReturns (w : W) (cells : List Address) (pCell : Option Cell) : Prop :=
  ∀ a ∈ cells, ∀ b ∈ cells, ∀ m w', (∀ c ∈ cells, I.value w' c = I.value w c) →
    ∃ v s', I.comparison rt pCell (I.value w a) (I.value w b) (m, w') = .value v s'

/-- On the elements the comparator is the total preorder `le`. -/
structure ComparesBy (w : W) (cells : List Address) (pCell : Option Cell)
    (le : Cell → Cell → Bool) : Prop where
  decides : ∀ a ∈ cells, ∀ b ∈ cells, ∀ m w',
    (∀ c ∈ cells, I.value w' c = I.value w c) →
      ∃ s', I.comparison rt pCell (I.value w a) (I.value w b) (m, w') =
        .value (le (I.value w a) (I.value w b)) s'
  trans : ∀ a ∈ cells, ∀ b ∈ cells, ∀ c ∈ cells,
    le (I.value w a) (I.value w b) = true → le (I.value w b) (I.value w c) = true →
      le (I.value w a) (I.value w c) = true
  total : ∀ a ∈ cells, ∀ b ∈ cells,
    (le (I.value w a) (I.value w b) || le (I.value w b) (I.value w a)) = true

/-- Sorting `x` is a stable sort: what it returns is a permutation; with a comparator
that returns it returns, and with a total preorder the result is in order. -/
structure SortsStably (fuel : Nat) (func : Option Cell) (m : SortMemory) (w : W)
    (x : Address) (cells : List Address) : Prop where
  perm : ∀ cells' w', SortsTo I rt fuel func m w x cells' w' → cells'.Perm cells
  returns : ∀ pCell s', I.preparedComparator func (m, w) = .value pCell s' →
    CompareReturns I rt w cells pCell →
      ∃ cells' w', SortsTo I rt fuel func m w x cells' w'
  stable : ∀ pCell s' le, I.preparedComparator func (m, w) = .value pCell s' →
    ComparesBy I rt w cells pCell le →
      ∃ cells' w', SortsTo I rt fuel func m w x cells' w' ∧
        SortedStably (fun a b => le (I.value w a) (I.value w b)) cells cells'

/-- Sorting `x` ends with the elements `values` in this order. -/
def SortsToValues (fuel : Nat) (func : Option Cell) (m : SortMemory) (w : W)
    (x : Address) (values : List Cell) : Prop :=
  ∃ cells' w', SortsTo I rt fuel func m w x cells' w' ∧ cells'.map (I.value w') = values

/-- While `P` holds, a list and an array both compare by `call`, which leaves the
memory and the elements alone. -/
structure Alike (w : W) (cells : List Address) (func pCell : Option Cell) (P : W → Prop)
    (call : Cell → Cell → Effect ε W Bool) : Prop where
  prepared : ∀ m, I.preparedComparator func (m, w) = .value pCell (m, w)
  start : P w
  values : ∀ w', P w' → ∀ c ∈ cells, I.value w' c = I.value w c
  list : ∀ m a b, Effect.ActsAs P m (I.comparison rt pCell a b) (call a b)
  array : ∀ m a b, Effect.ActsAs P m (I.comparison rt func a b) (call a b)

/-- Two sequences with the same elements are both sorted stably, and end with the same
elements in the same order. -/
structure SortsAlike (fuel : Nat) (func : Option Cell) (m : SortMemory) (w : W)
    (x : Address) (cells₁ : List Address) (z : Address) (cells₂ : List Address) :
    Prop where
  left : SortsStably I rt fuel func m w x cells₁
  right : SortsStably I rt fuel func m w z cells₂
  alike : ∀ values, SortsToValues I rt fuel func m w x values ↔
    SortsToValues I rt fuel func m w z values

/-- The comparator that a list uses and the one that an array uses are alike. -/
def ComparesAlike (w : W) (cells : List Address) (func : Option Cell) : Prop :=
  ∃ pCell P call, Alike I rt w cells func pCell P call

end Statements

variable {I : Interpreter W ε} {rt : Runtime} {fuel : Nat} {m : SortMemory} {w w' : W}
  {x z : Address} {cells cells₁ cells₂ cells' : List Address} {func pCell : Option Cell}
  {P : W → Prop} {call : Cell → Cell → Effect ε W Bool}

theorem SortEnds.sortsTo_iff {bad : SortMemory → Prop}
    {good : List Address → SortMemory → Prop} {r : Ending ε W (List Address)}
    (hgood : ∀ cells' m', good cells' m' → m'.IsSequence x cells')
    (h : SortEnds x good bad r (p_sort I rt fuel false x func (m, w))) :
    SortsTo I rt fuel func m w x cells' w' ↔ r = .value cells' w' := by
  constructor
  · rintro ⟨r', m', hr', hcells'⟩
    rw [hr'] at h
    cases r with
    | value cells₁ w₁ =>
        obtain ⟨m₁, heq, hm₁⟩ := h
        cases heq
        rcases hcells' with ⟨-, hcells'⟩ | ⟨hnone, -⟩
        · rw [hcells'.unique (hgood _ _ hm₁)]
        · cases hnone
    | error e w₁ =>
        obtain ⟨m₁, heq, -⟩ := h
        cases heq
    | undefined => cases h
    | timeout => cases h
  · rintro rfl
    obtain ⟨m₁, heq, hm₁⟩ := h
    exact ⟨_, m₁, heq, .inl ⟨rfl, hgood _ _ hm₁⟩⟩

namespace Alike

theorem mono (h : Alike I rt w cells func pCell P call) (hsub : cells' ⊆ cells) :
    Alike I rt w cells' func pCell P call :=
  ⟨h.prepared, h.start, fun w' hw' c hc => h.values w' hw' c (hsub hc), h.list, h.array⟩

theorem keeps (h : Alike I rt w cells func pCell P call) (m : SortMemory) (a b : Cell) :
    Effect.Keeps P (call a b) :=
  fun w' hw' => (h.list m a b w' hw').2

/-- Comparing two elements is comparing what they are at the start. -/
theorem cellComparison {pCell' : Option Cell} (h : Alike I rt w cells func pCell P call)
    (hcall : ∀ m a b, Effect.ActsAs P m (I.comparison rt pCell' a b) (call a b)) :
    ∀ m, ∀ a ∈ cells, ∀ b ∈ cells,
      Effect.ActsAs P m (I.cellComparison rt pCell' a b)
        (call (I.value w a) (I.value w b)) := by
  intro m a ha b hb w' hw'
  rw [Interpreter.cellComparison, h.values w' hw' a ha, h.values w' hw' b hb]
  exact hcall m _ _ w' hw'

/-- A list or an array is sorted by the passes. -/
theorem sortsTo_iff (h : Alike I rt w cells func pCell P call)
    (hx : m.IsSequence x cells) (hfuel : cells.length < fuel) :
    SortsTo I rt fuel func m w x cells' w' ↔
      passes (fun a b => call (I.value w a) (I.value w b)) (cells.length + 1) 1 cells w =
        .value cells' w' := by
  cases hx with
  | list kind hx =>
      by_cases hnil : cells = []
      · obtain ⟨first, hfirst, hchain⟩ := hx.contents
        have hend : p_sort I rt fuel false x func (m, w) = .value none (m, w) := by
          simp only [p_sort, hfirst, hchain.eq_stop_iff.mpr hnil, if_true, if_false,
            Bool.false_eq_true]
        have hpasses : passes (fun a b => call (I.value w a) (I.value w b))
            (cells.length + 1) 1 cells w = .value [] w := by
          rw [hnil]
          rfl
        rw [SortsTo, hend, hpasses]
        constructor
        · rintro ⟨r, m', heq, hcells'⟩
          cases heq
          rcases hcells' with ⟨hnone, -⟩ | ⟨-, rfl⟩
          · cases hnone
          · rfl
        · intro heq
          cases heq
          exact ⟨none, m, rfl, .inr ⟨rfl, rfl⟩⟩
      · exact (p_sort_list hx hnil hfuel h.prepared (h.cellComparison h.list)
          h.start).sortsTo_iff fun cells' m' => .list kind
  | array storage hx hvector =>
      exact (p_sort_array fuel hx hvector (h.cellComparison h.array) h.start).sortsTo_iff
        fun cells' m' h => h

theorem compares (h : Alike I rt w cells func pCell P call) {a b : Address}
    {s' : SortMemory × W} {v : Bool} (hw' : P w')
    (hv : I.comparison rt pCell (I.value w a) (I.value w b) (m, w') = .value v s') :
    ∃ w'', call (I.value w a) (I.value w b) w' = .value v w'' ∧ P w'' := by
  obtain ⟨heq, hend⟩ := h.list m (I.value w a) (I.value w b) w' hw'
  obtain ⟨w'', hcall, -⟩ := Effect.second_eq_value_iff.mp (heq.symm.trans hv)
  rw [hcall] at hend
  exact ⟨w'', hcall, hend⟩

/-- A list or an array is sorted stably. -/
theorem sortsStably (h : Alike I rt w cells func pCell P call)
    (hx : m.IsSequence x cells) (hfuel : cells.length < fuel) :
    SortsStably I rt fuel func m w x cells := by
  have hpCell : ∀ pCell' s', I.preparedComparator func (m, w) = .value pCell' s' →
      pCell' = pCell := by
    intro pCell' s' heq
    rw [h.prepared m] at heq
    cases heq
    rfl
  refine ⟨fun cells' w' hsort => ?_, fun pCell' s' hprepared hreturns => ?_,
    fun pCell' s' le hprepared hle => ?_⟩
  · exact passes_perm ((h.sortsTo_iff hx hfuel).mp hsort)
  · obtain rfl := hpCell pCell' s' hprepared
    obtain ⟨cells', w', heq⟩ := passes_returns_of_mem (P := P) (fun a ha b hb w' hw' => by
      obtain ⟨v, s', hv⟩ := hreturns a ha b hb m w' (h.values w' hw')
      obtain ⟨w'', hcall, hw''⟩ := h.compares hw' hv
      exact ⟨v, w'', hcall, hw''⟩) h.start
    exact ⟨cells', w', (h.sortsTo_iff hx hfuel).mpr heq⟩
  · obtain rfl := hpCell pCell' s' hprepared
    have hsorts : SortsBy P (fun a b => call (I.value w a) (I.value w b))
        (fun a b => le (I.value w a) (I.value w b)) cells := by
      refine ⟨fun a ha b hb w' hw' => ?_, hle.trans, hle.total⟩
      obtain ⟨s', hv⟩ := hle.decides a ha b hb m w' (h.values w' hw')
      exact h.compares hw' hv
    obtain ⟨cells', w', heq, hstable⟩ := passes_sortedStably hsorts h.start
    exact ⟨cells', w', (h.sortsTo_iff hx hfuel).mpr heq, hstable⟩

/-- The sorted elements depend on the elements only. -/
theorem sortsToValues_iff (h : Alike I rt w cells func pCell P call)
    (hx : m.IsSequence x cells) (hfuel : cells.length < fuel) {values : List Cell} :
    SortsToValues I rt fuel func m w x values ↔
      ∃ w', passes call (cells.length + 1) 1 (cells.map (I.value w)) w =
        .value values w' := by
  have hkeeps : Effect.Keeps P
      (passes (fun a b => call (I.value w a) (I.value w b)) (cells.length + 1) 1 cells) :=
    passes_keeps (fun a b => h.keeps m _ _) _ _ _
  have hvalues : ∀ cells' w', passes (fun a b => call (I.value w a) (I.value w b))
      (cells.length + 1) 1 cells w = .value cells' w' →
        cells'.map (I.value w') = cells'.map (I.value w) := by
    intro cells' w' heq
    have hend := hkeeps w h.start
    rw [heq] at hend
    refine List.map_congr_left fun c hc => ?_
    exact h.values w' hend c ((passes_perm heq).mem_iff.mp hc)
  rw [SortsToValues, passes_map]
  constructor
  · rintro ⟨cells', w', hsort, rfl⟩
    have heq := (h.sortsTo_iff hx hfuel).mp hsort
    refine ⟨w', ?_⟩
    rw [Effect.bind_of_value heq, hvalues cells' w' heq]
    rfl
  · rintro ⟨w', heq⟩
    obtain ⟨cells', w₁, hcells', hend⟩ := Effect.bind_eq_value_iff.mp heq
    cases hend
    exact ⟨cells', w', (h.sortsTo_iff hx hfuel).mpr hcells', hvalues cells' w' hcells'⟩

end Alike

/-- `sort` is a stable sort on lists and arrays alike, where they compare alike. -/
theorem sortsAlike_of_comparesAlike (h : ComparesAlike I rt w (cells₁ ++ cells₂) func)
    (hx : m.IsSequence x cells₁) (hz : m.IsSequence z cells₂)
    (hvalues : cells₁.map (I.value w) = cells₂.map (I.value w))
    (hfuel : cells₁.length < fuel) :
    SortsAlike I rt fuel func m w x cells₁ z cells₂ := by
  obtain ⟨pCell, P, call, h⟩ := h
  have h₁ := h.mono (List.subset_append_left cells₁ cells₂)
  have h₂ := h.mono (List.subset_append_right cells₁ cells₂)
  have hlen : cells₁.length = cells₂.length := by
    have hlen := congrArg List.length hvalues
    rwa [List.length_map, List.length_map] at hlen
  refine ⟨h₁.sortsStably hx hfuel, h₂.sortsStably hz (hlen ▸ hfuel), fun values => ?_⟩
  rw [h₁.sortsToValues_iff hx hfuel, h₂.sortsToValues_iff hz (hlen ▸ hfuel), hlen,
    hvalues]

/-! ### Comparators that are alike -/

/-- `compareCells` leaves the state as it is. -/
theorem compareCells_actsAs (w : W) (a b : Cell) :
    ∃ r : Ending ε W Bool, ∀ m, Effect.ActsAs (· = w) m (I.comparison rt none a b)
      (fun _ => r) := by
  have hactsAs : ∀ r : Ending ε W Bool, r.All (· = w) →
      (∀ m, I.comparison rt none a b (m, w) = Effect.second (fun _ => r) (m, w)) →
        ∀ m, Effect.ActsAs (· = w) m (I.comparison rt none a b) (fun _ => r) := by
    rintro r hr heq m w' rfl
    exact ⟨heq m, hr⟩
  cases hcompare : compareCells rt a b with
  | value c =>
      refine ⟨.value (decide (c ≤ 0)) w, hactsAs _ rfl fun m => ?_⟩
      simp only [Interpreter.comparison, hcompare, Effect.second]
  | error e =>
      refine ⟨.error (I.ofError e) w, hactsAs _ rfl fun m => ?_⟩
      simp only [Interpreter.comparison, hcompare, Effect.second]
  | undefined =>
      refine ⟨.undefined, hactsAs _ trivial fun m => ?_⟩
      simp only [Interpreter.comparison, hcompare, Effect.second]
  | timeout =>
      refine ⟨.timeout, hactsAs _ trivial fun m => ?_⟩
      simp only [Interpreter.comparison, hcompare, Effect.second]

/-- Without a comparator both use `compareCells`. -/
theorem comparesAlike_none (w : W) (cells : List Address) :
    ComparesAlike I rt w cells none := by
  choose r hr using @compareCells_actsAs W ε I rt w
  exact ⟨none, (· = w), fun a b _ => r a b, fun m => rfl, rfl,
    fun w' hw' c _ => by rw [hw'], fun m a b => hr a b m, fun m a b => hr a b m⟩

theorem callComparator_congr {f g a b : Cell} {s : SortMemory × W}
    (h : I.evaluateCall f [.quote a, .quote b] s = I.evaluateCall g [.quote a, .quote b] s) :
    I.callComparator f a b s = I.callComparator g a b s := by
  simp only [Interpreter.callComparator, h]

/-- A function, quoted or not, that leaves the memory and the elements alone. -/
theorem comparesAlike_of_isSelfEval {f : Cell} (hself : isSelfEval f = true) (hw : P w)
    (hvalues : ∀ w', P w' → ∀ c ∈ cells, I.value w' c = I.value w c)
    (hcall : ∀ m a b, Effect.ActsAs P m (I.callComparator f a b) (call a b)) :
    ComparesAlike I rt w cells (some f) ∧ ComparesAlike I rt w cells (some (.quote f)) := by
  have heval : I.evaluateExpression f = pure f := by
    cases f with
    | symbol s => cases hself
    | context s => cases hself
    | quote c => cases hself
    | expression l => cases hself
    | dynSymbol c name => cases hself
    | _ => rfl
  have hprepared : ∀ g, I.evaluateExpression g = pure f →
      ∀ m, I.preparedComparator (some g) (m, w) = .value (some f) (m, w) := by
    intro g hg m
    rw [Interpreter.preparedComparator, hg, Effect.pure_bind]
    cases f with
    | symbol s => cases hself
    | _ => rfl
  have hhead : ∀ args, I.evaluateCall (.quote f) args = I.evaluateCall f args := by
    intro args
    cases f with
    | symbol s => cases hself
    | context s => cases hself
    | quote c => cases hself
    | expression l => cases hself
    | dynSymbol c name => cases hself
    | _ => rfl
  refine ⟨⟨some f, P, call, hprepared f heval, hw, hvalues, hcall, hcall⟩,
    ⟨some f, P, call, hprepared _ rfl, hw, hvalues, hcall, fun m a b w' hw' => ?_⟩⟩
  have hquote : I.callComparator (.quote f) a b (m, w') = I.callComparator f a b (m, w') :=
    callComparator_congr (congrFun (hhead _) _)
  rw [Interpreter.comparison, hquote]
  exact hcall m a b w' hw'

/-- A symbol that keeps a primitive which leaves the memory and the elements alone. -/
theorem comparesAlike_of_primitive {s : Symbol} {p : Primitive} (hw : P w)
    (hsymbol : ∀ m w', P w' → I.contents (m, w') s = .primitive p)
    (hvalues : ∀ w', P w' → ∀ c ∈ cells, I.value w' c = I.value w c)
    (hcall : ∀ m a b, Effect.ActsAs P m (I.callComparator (.primitive p) a b) (call a b)) :
    ComparesAlike I rt w cells (some (.symbol s)) := by
  have hprepared : ∀ m, I.preparedComparator (some (.symbol s)) (m, w) =
      .value (some (.primitive p)) (m, w) := by
    intro m
    have heval : I.evaluateExpression (.symbol s) (m, w) =
        .value (.primitive p) (m, w) :=
      congrArg (fun c => Ending.value c (m, w)) (hsymbol m w hw)
    rw [Interpreter.preparedComparator, Effect.bind_of_value heval]
    rfl
  refine ⟨some (.primitive p), P, call, hprepared, hw, hvalues, hcall,
    fun m a b w' hw' => ?_⟩
  have hhead : ∀ args, I.evaluateCall (.symbol s) args (m, w') =
      I.evaluateCall (.primitive p) args (m, w') := by
    intro args
    exact congrArg (fun c => I.callFunction s.context c args (m, w')) (hsymbol m w' hw')
  have heq : I.callComparator (.symbol s) a b (m, w') =
      I.callComparator (.primitive p) a b (m, w') := callComparator_congr (hhead _)
  rw [Interpreter.comparison, heq]
  exact hcall m a b w' hw'

/-! ### A pair -/

/-- An interpreter that knows the primitive `>` on integers. -/
def greaterInterpreter : Interpreter Unit Error where
  value _ a := if a = 3 ∨ a = 6 then .long 1 else .long 2
  contents _ s := if s = ⟨"MAIN", ">"⟩ then .primitive .greater else .nil
  currentContext _ := "MAIN"
  evaluateOther _ := pure .nil
  callPrimitive p args :=
    match p, args with
    | .greater, [.quote (.long a), .quote (.long b)] =>
        pure (if b.slt a then .true_ else .nil)
    | _, _ => pure .nil
  callDynamic _ _ _ := pure .nil
  callContext _ _ := pure .nil
  callOther _ _ _ := pure .nil
  ofError e := e
  ofListError _ := .listExpected
  resultStackIdx _ := 0
  cleanupResults _ w := w

/-- The cell 2 is the list of the cells 3 and 4, the cell 5 the array of 6 and 7. -/
def pairMemory : SortMemory where
  pool :=
    { contents := fun a => if a = 2 then .list .expression 3
        else if a = 5 then .other (.array 0) else .other .other
      aux := fun _ => nilCell
      next := fun a => if a = 3 then 4 else nilCell }
  vectors x := if x = 0 then some [6, 7] else none
  nextVector := 1

theorem pairMemory_list : pairMemory.IsSequence 2 [3, 4] := by
  refine .list .expression ⟨⟨3, rfl, ?_⟩, by decide⟩
  simp only [Linked.Chain.cons_iff, Linked.Chain.nil_iff]
  decide

theorem pairMemory_array : pairMemory.IsSequence 5 [6, 7] := .array 0 rfl rfl

/-- What `>` does as a comparator. -/
def greaterCall : Cell → Cell → Effect Error Unit Bool
  | .long a, .long b => pure (b.slt a)
  | _, _ => pure false

theorem greaterCall_actsAs (m : SortMemory) (a b : Cell) :
    Effect.ActsAs (fun _ => True) m
      (greaterInterpreter.callComparator (.primitive .greater) a b) (greaterCall a b) := by
  intro w hw
  cases a with
  | long a =>
      cases b with
      | long b =>
          have hcall : greaterInterpreter.evaluateCall (.primitive .greater)
              [.quote (.long a), .quote (.long b)] (m, w) =
                .value (if b.slt a then .true_ else .nil) (m, w) := rfl
          have hvalue : Effect.second (greaterCall (.long a) (.long b)) (m, w) =
              .value (b.slt a) (m, w) := rfl
          refine ⟨?_, trivial⟩
          rw [hvalue, Interpreter.callComparator, hcall]
          cases b.slt a with
          | true => rfl
          | false => rfl
      | _ => exact ⟨rfl, trivial⟩
  | _ => exact ⟨rfl, trivial⟩

/-- `(sort '(1 2) >)` and the same with an array. -/
theorem sortsAlike_pair : SortsAlike greaterInterpreter exactRuntime 3
    (some (.primitive .greater)) pairMemory () 2 [3, 4] 5 [6, 7] :=
  sortsAlike_of_comparesAlike
    (comparesAlike_of_isSelfEval rfl trivial (fun _ _ _ _ => rfl) greaterCall_actsAs).1
    pairMemory_list pairMemory_array rfl (by decide)

theorem p_sort_array_error : p_sort greaterInterpreter exactRuntime 3 false 5
    (some (.quote (.symbol ⟨"MAIN", ">"⟩))) (pairMemory, ()) =
      .error .invalidFunction (pairMemory.free 0, ()) := rfl

/-- `(sort '(1 2) '>)` is `(2 1)`, for an array it raises an error. -/
theorem not_sortsAlike_pair : ¬ SortsAlike greaterInterpreter exactRuntime 3
    (some (.quote (.symbol ⟨"MAIN", ">"⟩))) pairMemory () 2 [3, 4] 5 [6, 7] := by
  intro h
  have hreturns : CompareReturns greaterInterpreter exactRuntime () [6, 7]
      (some (.primitive .greater)) := by
    intro a ha b hb m w hw
    obtain ⟨c, hc⟩ : ∃ c, greaterInterpreter.value () a = .long c := by
      rcases List.mem_cons.mp ha with rfl | ha
      · exact ⟨1, rfl⟩
      · obtain rfl := List.mem_singleton.mp ha
        exact ⟨2, rfl⟩
    obtain ⟨d, hd⟩ : ∃ d, greaterInterpreter.value () b = .long d := by
      rcases List.mem_cons.mp hb with rfl | hb
      · exact ⟨1, rfl⟩
      · obtain rfl := List.mem_singleton.mp hb
        exact ⟨2, rfl⟩
    rw [hc, hd, Interpreter.comparison, (greaterCall_actsAs m _ _ w trivial).1]
    exact ⟨d.slt c, (m, w), rfl⟩
  obtain ⟨cells', w', r, m', hsort, -⟩ := h.right.returns _ _ rfl hreturns
  rw [p_sort_array_error] at hsort
  cases hsort

end NewLispNeo
