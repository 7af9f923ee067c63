/-
A comparator that fails: what `sort` leaves of the sorted object and of the result
stack.
-/
import NewLispNeo.SortStability

namespace NewLispNeo

open BottomUp

variable {W ε : Type}

/-- Evaluation pops nothing of the result stack that it finds, `cleanupResults` pops
down to its mark. -/
structure Interpreter.Balanced (I : Interpreter W ε) : Prop where
  cleanup : ∀ n w, I.resultStackIdx (I.cleanupResults n w) = min n (I.resultStackIdx w)
  evaluateOther : ∀ n c, Effect.Keeps (fun s => n ≤ I.resultStackIdx s.2)
    (I.evaluateOther c)
  callPrimitive : ∀ n p args, Effect.Keeps (fun s => n ≤ I.resultStackIdx s.2)
    (I.callPrimitive p args)
  callDynamic : ∀ n c name args, Effect.Keeps (fun s => n ≤ I.resultStackIdx s.2)
    (I.callDynamic c name args)
  callContext : ∀ n c args, Effect.Keeps (fun s => n ≤ I.resultStackIdx s.2)
    (I.callContext c args)
  callOther : ∀ n c pCell args, Effect.Keeps (fun s => n ≤ I.resultStackIdx s.2)
    (I.callOther c pCell args)

/-- The calls of the comparator do not touch the sorted object. -/
def Interpreter.LeavesLinks (I : Interpreter W ε) (g : Cell) : Prop :=
  ∃ call : Cell → Cell → Effect ε W Bool,
    ∀ a b, I.callComparator g a b = Effect.second (call a b)

/-- `x` has the elements that it had, each once and in its own memory, and the result
stack is where it was. -/
structure Intact (I : Interpreter W ε) (x : Address) (cells : List Address) (w : W)
    (m' : SortMemory) (w' : W) : Prop where
  elements : ∃ cells', cells'.Perm cells ∧ m'.IsSequence x cells'
  resultStack : I.resultStackIdx w' = I.resultStackIdx w

def SortMemory.IsList (m : SortMemory) (x : Address) : Prop :=
  ∃ kind first, m.pool.contents x = .list kind first

variable {I : Interpreter W ε} {rt : Runtime} {fuel : Nat} {m m' : SortMemory}
  {w w₁ w' : W} {x : Address} {cells : List Address} {f pCell : Cell} {e : ε}

namespace Interpreter.Balanced

theorem evaluateExpression (h : I.Balanced) (n : Nat) (c : Cell) :
    Effect.Keeps (fun s => n ≤ I.resultStackIdx s.2) (I.evaluateExpression c) := by
  cases c with
  | expression l => exact h.evaluateOther n _
  | dynSymbol c name => exact h.evaluateOther n _
  | _ => exact fun s hs => hs

theorem callFunction (h : I.Balanced) (n : Nat) (newContext : String) (pCell : Cell)
    (args : List Cell) :
    Effect.Keeps (fun s => n ≤ I.resultStackIdx s.2)
      (I.callFunction newContext pCell args) := by
  cases pCell with
  | primitive p => exact h.callPrimitive n p args
  | context s => exact h.callContext n s args
  | nil => exact fun s hs => hs
  | true_ => exact fun s hs => hs
  | symbol s => exact fun s hs => hs
  | quote c => exact fun s hs => hs
  | dynSymbol c name => exact fun s hs => hs
  | _ => exact h.callOther n newContext _ args

theorem evaluateCall (h : I.Balanced) (n : Nat) (head : Cell) (args : List Cell) :
    Effect.Keeps (fun s => n ≤ I.resultStackIdx s.2) (I.evaluateCall head args) := by
  have hhead : ∀ c, Effect.Keeps (fun s => n ≤ I.resultStackIdx s.2)
      (I.evaluateExpression c >>= fun pCell s =>
        I.callFunction (I.currentContext s.2) pCell args s) := fun c =>
    (h.evaluateExpression n c).bind fun pCell s hs => h.callFunction n _ pCell args s hs
  cases head with
  | symbol s => exact fun s' hs => h.callFunction n s.context _ args s' hs
  | dynSymbol c name => exact h.callDynamic n c name args
  | _ => exact hhead _

/-- A call of the comparator leaves the result stack where it was. -/
theorem callComparator (h : I.Balanced) (n : Nat) (g a b : Cell) :
    Effect.Keeps (fun s => I.resultStackIdx s.2 = n) (I.callComparator g a b) := by
  intro s hs
  have hend := h.evaluateCall n g [.quote a, .quote b] s (Nat.le_of_eq hs.symm)
  rw [Interpreter.callComparator]
  cases hcall : I.evaluateCall g [.quote a, .quote b] s with
  | value cell s' =>
      rw [hcall] at hend
      change I.resultStackIdx (I.cleanupResults (I.resultStackIdx s.2) s'.2) = n
      rw [h.cleanup, hs]
      exact Nat.min_eq_left hend
  | error e s' =>
      rw [hcall] at hend
      change I.resultStackIdx (I.cleanupResults (I.resultStackIdx s.2) s'.2) = n
      rw [h.cleanup, hs]
      exact Nat.min_eq_left hend
  | undefined => trivial
  | timeout => trivial

end Interpreter.Balanced

/-- A comparator that leaves the links alone is a comparison on the rest of the
state, which keeps the result stack. -/
theorem cellComparison_actsAs (rt : Runtime) (cells : List Address) {g : Cell}
    (hI : I.Balanced) (hg : I.LeavesLinks g) (n : Nat) :
    ∃ before : Address → Address → Effect ε W Bool,
      (∀ m, ∀ a ∈ cells, ∀ b ∈ cells,
        Effect.ActsAs (fun w => I.resultStackIdx w = n) m
          (I.cellComparison rt (some g) a b) (before a b)) ∧
      ∀ a b, Effect.Keeps (fun w => I.resultStackIdx w = n) (before a b) := by
  obtain ⟨call, hcall⟩ := hg
  have hkeeps : ∀ a b, Effect.Keeps (fun w => I.resultStackIdx w = n) (call a b) := by
    intro a b w hw
    have hend := hI.callComparator n g a b (⟨⟨fun _ => .other .other, id, id⟩,
      fun _ => none, 0⟩, w) hw
    rw [hcall, Effect.second] at hend
    cases hw' : call a b w with
    | value v w' =>
        rw [hw'] at hend
        exact hend
    | error e w' =>
        rw [hw'] at hend
        exact hend
    | undefined => trivial
    | timeout => trivial
  refine ⟨fun a b w => call (I.value w a) (I.value w b) w, fun m a _ b _ w hw => ?_,
    fun a b w hw => hkeeps _ _ w hw⟩
  refine ⟨?_, hkeeps _ _ w hw⟩
  rw [Interpreter.cellComparison, Interpreter.comparison, hcall]
  rfl

theorem SortEnds.of_error {good : List Address → SortMemory → Prop}
    {bad : SortMemory → Prop} {r : Ending ε W (List Address)}
    (h : SortEnds x good bad r (.error e (m', w'))) : r = .error e w' ∧ bad m' := by
  cases r with
  | value cells w =>
      obtain ⟨m, heq, -⟩ := h
      cases heq
  | error e' w =>
      obtain ⟨m, heq, hbad⟩ := h
      cases heq
      exact ⟨rfl, hbad⟩
  | undefined => cases h
  | timeout => cases h

/-- An error in the passes leaves the result stack where the passes found it. -/
theorem resultStackIdx_of_passes {before : Address → Address → Effect ε W Bool}
    (hkeeps : ∀ a b, Effect.Keeps (fun w' => I.resultStackIdx w' = I.resultStackIdx w)
      (before a b))
    (herror : passes before (cells.length + 1) 1 cells w = .error e w') :
    I.resultStackIdx w' = I.resultStackIdx w := by
  have hend := passes_keeps hkeeps (cells.length + 1) 1 cells w rfl
  rwa [herror] at hend

/-- After an error in a call of the comparator the sorted object and the result stack
are as before exactly when the object is a list and the result stack was not used to
evaluate the comparator. -/
theorem intact_iff (hI : I.Balanced) (hx : m.IsSequence x cells)
    (hfuel : cells.length < fuel)
    (hprepared : ∀ m, I.preparedComparator (some f) (m, w) =
      .value (some pCell) (m, w₁))
    (hlist : I.LeavesLinks pCell) (harray : I.LeavesLinks f)
    (herror : p_sort I rt fuel false x (some f) (m, w) = .error e (m', w')) :
    Intact I x cells w m' w' ↔
      m.IsList x ∧ I.resultStackIdx w₁ = I.resultStackIdx w := by
  cases hx with
  | list kind hx =>
      obtain ⟨first, hfirst, hchain⟩ := hx.contents
      have hne : cells ≠ [] := by
        intro hnil
        have hend : p_sort I rt fuel false x (some f) (m, w) = .value none (m, w) := by
          simp only [p_sort, hfirst, hchain.eq_stop_iff.mpr hnil, if_true, if_false,
            Bool.false_eq_true]
        rw [hend] at herror
        cases herror
      obtain ⟨before, hacts, hkeeps⟩ := cellComparison_actsAs rt cells hI hlist
        (I.resultStackIdx w₁)
      have hends := p_sort_list hx hne hfuel hprepared hacts rfl
      rw [herror] at hends
      obtain ⟨hpasses, hx'⟩ := hends.of_error
      have hstack := resultStackIdx_of_passes hkeeps hpasses
      constructor
      · intro h
        exact ⟨⟨kind, first, hfirst⟩, hstack.symm.trans h.resultStack⟩
      · rintro ⟨-, hw₁⟩
        exact ⟨⟨cells, .refl _, .list kind hx'⟩, hstack.trans hw₁⟩
  | array storage hx hvector =>
      obtain ⟨before, hacts, hkeeps⟩ := cellComparison_actsAs rt cells hI harray
        (I.resultStackIdx w)
      have hends := p_sort_array fuel hx hvector hacts rfl
      rw [herror] at hends
      obtain ⟨hpasses, hpool, hfreed, -⟩ := hends.of_error
      constructor
      · rintro ⟨⟨cells', -, hcells'⟩, -⟩
        cases hcells' with
        | list kind hlist =>
            obtain ⟨first, hfirst, -⟩ := hlist.contents
            rw [hpool, hx] at hfirst
            cases hfirst
        | array storage' hx' hvector' =>
            rw [hpool, hx] at hx'
            cases hx'
            rw [hfreed rfl] at hvector'
            cases hvector'
      · rintro ⟨⟨kind, first, hfirst⟩, -⟩
        rw [hx] at hfirst
        cases hfirst

/-- An interpreter that evaluates expressions to `nil`, on the result stack, and
functions that throw. -/
def throwingInterpreter : Interpreter Nat Error where
  value _ _ := .nil
  contents _ _ := .nil
  currentContext _ := "MAIN"
  evaluateOther _ := fun s => .value .nil (s.1, s.2 + 1)
  callPrimitive _ _ := pure .nil
  callDynamic _ _ _ := pure .nil
  callContext _ _ := pure .nil
  callOther _ _ _ := fun s => .error .invalidParameter (s.1, s.2 + 2)
  ofError e := e
  ofListError _ := .listExpected
  resultStackIdx w := w
  cleanupResults n w := min n w

theorem throwingInterpreter_balanced : throwingInterpreter.Balanced where
  cleanup _ _ := rfl
  evaluateOther _ _ _ hs := Nat.le_succ_of_le hs
  callPrimitive _ _ _ _ hs := hs
  callDynamic _ _ _ _ _ hs := hs
  callContext _ _ _ _ hs := hs
  callOther _ _ _ _ _ hs := Nat.le_add_right_of_le hs

/-- `(fn (x y) (throw 'e))` -/
def throwing : Cell :=
  .lambda none [.expression [.symbol ⟨"MAIN", "x"⟩, .symbol ⟨"MAIN", "y"⟩],
    .expression [.symbol ⟨"MAIN", "throw"⟩, .quote (.symbol ⟨"MAIN", "e"⟩)]]

theorem leavesLinks_throwing : throwingInterpreter.LeavesLinks throwing :=
  ⟨fun _ _ w => .error .invalidParameter (min w (w + 2)), fun _ _ => rfl⟩

/-- Sorting a list with `throwing`. -/
theorem intact_pair : Intact throwingInterpreter 2 [3, 4] 0
      { pairMemory with
        pool := pairMemory.pool.setAux 2 nilCell
        vectors := Function.update (Function.update pairMemory.vectors 1 (some [3, 4])) 1
          none
        nextVector := 2 } 0 ↔
    pairMemory.IsList 2 ∧
      throwingInterpreter.resultStackIdx 0 = throwingInterpreter.resultStackIdx 0 :=
  intact_iff throwingInterpreter_balanced pairMemory_list (by decide) (fun _ => rfl)
    leavesLinks_throwing leavesLinks_throwing
    (rfl : p_sort throwingInterpreter exactRuntime 3 false 2 (some throwing)
      (pairMemory, 0) = .error .invalidParameter (_, 0))

/-- An array sorted with `throwing` has lost its storage. -/
theorem not_intact_array :
    p_sort throwingInterpreter exactRuntime 3 false 5 (some throwing) (pairMemory, 0) =
        .error .invalidParameter (pairMemory.free 0, 0) ∧
      ¬ Intact throwingInterpreter 5 [6, 7] 0 (pairMemory.free 0) 0 := by
  refine ⟨rfl, fun h => ?_⟩
  obtain ⟨cells', -, hcells'⟩ := h.elements
  cases hcells' with
  | list kind hlist =>
      obtain ⟨first, hfirst, -⟩ := hlist.contents
      cases hfirst
  | array storage hx hvector =>
      cases hx
      cases hvector

end NewLispNeo
