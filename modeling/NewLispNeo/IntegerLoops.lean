/-
`for` and `dotimes` over integers, and `sequence`: the arithmetic of their counters is
signed 64-bit arithmetic, and what leaves it is undefined. So is what they read of their
expression after a collection of the nursery has moved it.
-/
import NewLispNeo.Restoring

namespace NewLispNeo.EnvStack

open Bindings EnvM

/-- The result of a signed 64-bit operation whose exact value is `z`. -/
def int64 (z : Int) : EnvM Int := if -2 ^ 63 ≤ z ∧ z < 2 ^ 63 then pure z else undefined

/-- The value at step `i`. -/
def stepValue (fromInt64 toInt64 i : Int) : Int :=
  if toInt64 < fromInt64 then fromInt64 - i else fromInt64 + i

/-- `loop` and `p_sequence` have their expression only in C variables. Whether it still
stands where these point: behind the first limit, when that has been evaluated, and in
each round, until `cond` and `block` have been read. It does when it lies in Gen 1, where an
earlier collection has put it, or when no collection of the nursery has moved it. -/
structure Standing where
  limits : Bool
  round : Int → Bool

/-- A read through a C variable. -/
def reads (standing : Bool) : EnvM Unit := if standing then pure () else undefined

section Functions

variable (S : Settings) (standing : Standing) (ev : EnvCell → EnvM EnvCell)

/-- `evaluateExpression(cond)`, when there is one. -/
def evaluateCond : Option EnvCell → EnvM EnvCell
  | none => pure .nil
  | some cond => ev cond

/-- The loop of `loop` on integers. -/
def integerLoopFrom (symbol : Option Symbol) (fromInt64 toInt64 : Int) (forFlag : Bool)
    (stepCnt : Int) (cond : Option EnvCell) (block : List EnvCell) :
    Nat → Int → EnvCell → EnvM EnvCell
  | 0, _, _ => running
  | fuel + 1, i, cell =>
      if stepCnt < i ∨ (!forFlag ∧ i = stepCnt) then pure cell
      else do
        let value ← int64 (stepValue fromInt64 toInt64 i)
        setLoopSymbol symbol (.long (BitVec.ofInt 64 value))
        reads (standing.round i)
        let stop ← evaluateCond ev cond
        if !stop.isNil then pure stop
        else do
          let cell ← evaluateBlock ev .nil block
          let i ← int64 (i + 1)
          integerLoopFrom symbol fromInt64 toInt64 forFlag stepCnt cond block fuel i cell

/-- `fromInt64`, `toInt64`, `stepCnt` and `cond`. -/
def integerSteps (params : List EnvCell) (forFlag : Bool) :
    EnvM (Int × Int × Int × Option EnvCell) := do
  if forFlag then do
    let (fromInt64, params) ← getInteger64 S ev params
    reads standing.limits
    let (toInt64, _) ← getInteger64 S ev params
    let stepCnt ← int64
      (if fromInt64 < toInt64 then toInt64 - fromInt64 else fromInt64 - toInt64)
    pure (fromInt64, toInt64, stepCnt, none)
  else do
    let (stepCnt, cond) ← getInteger64 S ev params
    reads standing.limits
    pure (0, 0, stepCnt, cond.head?)

/-- The symbol gets its outer value back, and loses its protection. -/
def endLoop (symbol : Option Symbol) (cell : EnvCell) : EnvM EnvCell := do
  let s ← popLoopSymbol symbol
  modify fun σ => { σ with
    flags := Function.update σ.flags s (σ.flags s - (σ.flags s &&& symbolProtected)) }
  pure cell

/-- `loop` with at most two parameters after the symbol, where `intFlag` is set. -/
def integerLoop (fuel : Nat) (params : List EnvCell) (forFlag : Bool) : EnvM EnvCell := do
  let (symbol, limits) ← getPushSymbolParam S params
  let (fromInt64, toInt64, stepCnt, cond) ← integerSteps S standing ev limits forFlag
  let cell ← integerLoopFrom standing ev symbol fromInt64 toInt64 forFlag stepCnt cond params.tail
    fuel 0 .nil
  endLoop symbol cell

/-- The loop of `p_sequence`. -/
def sequenceFrom (fromInt64 toInt64 stepCnt : Int) : Nat → Int → EnvM (List EnvCell)
  | 0, _ => running
  | fuel + 1, i =>
      if stepCnt < i then pure []
      else do
        let value ← int64 (stepValue fromInt64 toInt64 i)
        let i ← int64 (i + 1)
        let cells ← sequenceFrom fromInt64 toInt64 stepCnt fuel i
        pure (.long (BitVec.ofInt 64 value) :: cells)

/-- `p_sequence` of two integers. -/
def pSequence (fuel : Nat) (params : List EnvCell) : EnvM EnvCell := do
  let (fromInt64, params) ← getInteger64 S ev params
  reads standing.limits
  let (toInt64, _) ← getInteger64 S ev params
  let stepCnt ← int64
    (if toInt64 < fromInt64 then fromInt64 - toInt64 else toInt64 - fromInt64)
  let cells ← sequenceFrom fromInt64 toInt64 stepCnt fuel 1
  pure (.expression (.long (BitVec.ofInt 64 fromInt64) :: cells))

end Functions

/-! ### What the loops are for -/

/-- The integers from `a` up or down to `b`. -/
def span (a b : Int) : List Int :=
  (List.range ((b - a).natAbs + 1)).map fun k : Nat => stepValue a b k

/-- The integers from `0` to `n - 1`. -/
def below (n : Int) : List Int := (List.range n.toNat).map fun k : Nat => (k : Int)

/-- The body once for each of the values, up to the first one at which the condition is
true. -/
def iterate (ev : EnvCell → EnvM EnvCell) (s : Symbol) (cond : Option EnvCell)
    (block : List EnvCell) : List Int → EnvCell → EnvM EnvCell
  | [], cell => pure cell
  | value :: values, _ => do
      setContents s (.long (BitVec.ofInt 64 value))
      let stop ← evaluateCond ev cond
      if !stop.isNil then pure stop
      else do
        let cell ← evaluateBlock ev .nil block
        iterate ev s cond block values cell

/-- The expression stands in every round that this iteration comes to, the first of them
being round `k`. -/
def Stands (standing : Standing) (ev : EnvCell → EnvM EnvCell) (s : Symbol)
    (cond : Option EnvCell) (block : List EnvCell) : Nat → List Int → EnvState → Prop
  | _, [], _ => True
  | k, value :: values, σ => standing.round k = true ∧ ∀ σ₀ stop σ₁ cell σ₂,
      setContents s (.long (BitVec.ofInt 64 value)) σ = .value () σ₀ →
      evaluateCond ev cond σ₀ = .value stop σ₁ → stop.isNil = true →
      evaluateBlock ev .nil block σ₁ = .value cell σ₂ →
        Stands standing ev s cond block (k + 1) values σ₂

/-- The limits evaluate to `x`, with the symbol bound. -/
def LimitsAre {α : Type} (S : Settings) (s : Symbol) (limits : EnvM α) (x : α)
    (σ σ₁ : EnvState) : Prop :=
  isProtected σ.flags s = false ∧
    (do pushEnvironment S s; setContents s .nil; limits) σ = .value x σ₁

/-- Two cells are evaluated. -/
def evaluateBoth (ev : EnvCell → EnvM EnvCell) (cell cell' : EnvCell) :
    EnvM (EnvCell × EnvCell) := do
  let value ← ev cell
  let value' ← ev cell'
  pure (value, value')

/-- `(for (s a b) block)` -/
def ForRight (a b : Word) : Prop :=
  ∀ (S : Settings) (standing : Standing) (depth : Nat) (s : Symbol)
    (fromCell toCell : EnvCell) (block : List EnvCell) (σ σ₁ : EnvState),
    LimitsAre S s (evaluateBoth (evaluateExpression S depth) fromCell toCell)
      (.long a, .long b) σ σ₁ →
    standing.limits = true →
    Stands standing (evaluateExpression S depth) s none block 0 (span a.toInt b.toInt) σ₁ →
    ∀ fuel, (span a.toInt b.toInt).length < fuel →
      integerLoop S standing (evaluateExpression S depth) fuel
          (.expression [.symbol s, fromCell, toCell] :: block) true σ =
        (iterate (evaluateExpression S depth) s none block (span a.toInt b.toInt) .nil >>=
          endLoop (some s)) σ₁

/-- `(sequence a b)` -/
def SequenceRight (a b : Word) : Prop :=
  ∀ (S : Settings) (standing : Standing) (depth : Nat) (fromCell toCell : EnvCell)
    (σ σ₁ : EnvState),
    evaluateBoth (evaluateExpression S depth) fromCell toCell σ =
      .value (.long a, .long b) σ₁ →
    standing.limits = true →
    ∀ fuel, (span a.toInt b.toInt).length ≤ fuel →
      pSequence S standing (evaluateExpression S depth) fuel [fromCell, toCell] σ =
        .value (.expression ((span a.toInt b.toInt).map fun z => .long (BitVec.ofInt 64 z))) σ₁

/-- `(dotimes (s n cond) block)` -/
def DotimesRight (n : Word) : Prop :=
  ∀ (S : Settings) (standing : Standing) (depth : Nat) (s : Symbol) (count : EnvCell)
    (cond : Option EnvCell) (block : List EnvCell) (σ σ₁ : EnvState),
    LimitsAre S s (evaluateExpression S depth count) (.long n) σ σ₁ →
    standing.limits = true →
    Stands standing (evaluateExpression S depth) s cond block 0 (below n.toInt) σ₁ →
    ∀ fuel, (below n.toInt).length < fuel →
      integerLoop S standing (evaluateExpression S depth) fuel
          (.expression (.symbol s :: count :: cond.toList) :: block) false σ =
        (iterate (evaluateExpression S depth) s cond block (below n.toInt) .nil >>=
          endLoop (some s)) σ₁

/-- After a loop its symbol has the outer value again, unless a form of its body has been
left in the middle of its bindings. -/
def OuterValueKept : Prop :=
  ∀ (S : Settings) (standing : Standing) (depth fuel : Nat) (s : Symbol)
    (limits block : List EnvCell) (forFlag : Bool) (σ σ' : EnvState) (cell : EnvCell),
    isProtected σ.flags s = false →
    integerLoop S standing (evaluateExpression S depth) fuel
      (.expression (.symbol s :: limits) :: block) forFlag σ = .value cell σ' →
    σ'.abandoned = false →
      σ'.env.contents s = σ.env.contents s ∧ σ'.env.stack = σ.env.stack

/-- The loops from `a` to `b` and `n` times, and `sequence`, go over all integers of
their ranges in order, each with the 64 bits of its cell. -/
structure Iterates (a b n : Word) : Prop where
  for_ : ForRight a b
  sequence : SequenceRight a b
  dotimes : DotimesRight n
  exact : ∀ z ∈ span a.toInt b.toInt ++ below n.toInt, (BitVec.ofInt 64 z).toInt = z
  ends : (span a.toInt b.toInt).head? = some a.toInt ∧
    (span a.toInt b.toInt).getLast? = some b.toInt
  outer : OuterValueKept

/-- An expression that has been moved before it has been read is lost: the loops and
`sequence` go on with what stands there now. -/
structure LostWhenMoved (a b n : Word) : Prop where
  for_ : ∀ (S : Settings) (standing : Standing) (depth : Nat) (s : Symbol)
    (fromCell toCell : EnvCell) (block : List EnvCell) (σ σ₁ : EnvState),
    LimitsAre S s (evaluateBoth (evaluateExpression S depth) fromCell toCell)
      (.long a, .long b) σ σ₁ →
    ¬ (standing.limits = true ∧ Stands standing (evaluateExpression S depth) s none block 0
      (span a.toInt b.toInt) σ₁) →
    ∀ fuel, (span a.toInt b.toInt).length < fuel →
      integerLoop S standing (evaluateExpression S depth) fuel
        (.expression [.symbol s, fromCell, toCell] :: block) true σ = .undefined
  sequence : ∀ (S : Settings) (standing : Standing) (depth fuel : Nat)
    (fromCell toCell : EnvCell) (σ σ₁ : EnvState),
    evaluateBoth (evaluateExpression S depth) fromCell toCell σ =
      .value (.long a, .long b) σ₁ →
    ¬ standing.limits = true →
      pSequence S standing (evaluateExpression S depth) fuel [fromCell, toCell] σ = .undefined
  dotimes : ∀ (S : Settings) (standing : Standing) (depth : Nat) (s : Symbol)
    (count : EnvCell) (cond : Option EnvCell) (block : List EnvCell) (σ σ₁ : EnvState),
    LimitsAre S s (evaluateExpression S depth count) (.long n) σ σ₁ →
    ¬ (standing.limits = true ∧ Stands standing (evaluateExpression S depth) s cond block 0
      (below n.toInt) σ₁) →
    ∀ fuel, (below n.toInt).length < fuel →
      integerLoop S standing (evaluateExpression S depth) fuel
        (.expression (.symbol s :: count :: cond.toList) :: block) false σ = .undefined

/-! ### One round and all rounds -/

section Rounds

variable {α β : Type} {S : Settings} {standing : Standing} {ev : EnvCell → EnvM EnvCell}
  {σ σ₁ σ' : EnvState} {m : EnvM α} {f g : α → EnvM β} {x : α} {y : β}
  {fromInt64 toInt64 stepCnt i z : Int} {forFlag : Bool} {fuel : Nat}

theorem bind_of_value (h : m σ = .value x σ₁) : (m >>= f) σ = f x σ₁ := by
  change EnvM.bind m f σ = _
  rw [EnvM.bind, h]

theorem bind_of_undefined (h : m σ = .undefined) : (m >>= f) σ = .undefined := by
  change EnvM.bind m f σ = _
  rw [EnvM.bind, h]

theorem bind_eq_value_iff :
    (m >>= f) σ = .value y σ' ↔ ∃ x σ₁, m σ = .value x σ₁ ∧ f x σ₁ = .value y σ' := by
  change EnvM.bind m f σ = _ ↔ _
  rw [EnvM.bind]
  cases m σ with
  | value x σ₁ => simp [and_assoc]
  | raised j σ₁ => simp
  | undefined => simp
  | running => simp

theorem bind_congr_value (h : ∀ x σ₁, m σ = .value x σ₁ → f x σ₁ = g x σ₁) :
    (m >>= f) σ = (m >>= g) σ := by
  change EnvM.bind m f σ = EnvM.bind m g σ
  rw [EnvM.bind, EnvM.bind]
  cases hm : m σ with
  | value x σ₁ => exact h x σ₁ hm
  | raised j σ₁ => rfl
  | undefined => rfl
  | running => rfl

theorem reads_true_bind {f : Unit → EnvM β} : reads true >>= f = f () := rfl

theorem reads_false_bind {f : Unit → EnvM β} : (reads false >>= f) σ = .undefined := rfl

theorem int64_of_fits (h : -2 ^ 63 ≤ z ∧ z < 2 ^ 63) : int64 z = pure z := if_pos h

theorem int64_of_not_fits (h : ¬ (-2 ^ 63 ≤ z ∧ z < 2 ^ 63)) : int64 z = undefined := if_neg h

theorem int64_eq_value_iff {z' : Int} : int64 z σ = .value z' σ' ↔
    (-2 ^ 63 ≤ z ∧ z < 2 ^ 63) ∧ z' = z ∧ σ' = σ := by
  by_cases h : -2 ^ 63 ≤ z ∧ z < 2 ^ 63
  · rw [int64_of_fits h]
    constructor
    · intro hvalue
      cases hvalue
      exact ⟨h, rfl, rfl⟩
    · rintro ⟨-, rfl, rfl⟩
      rfl
  · rw [int64_of_not_fits h]
    constructor
    · intro hvalue
      cases hvalue
    · intro hvalue
      exact absurd hvalue.1 h

/-- The number of steps, with the last one of `for`. -/
def rounds (stepCnt : Int) (forFlag : Bool) : Int := if forFlag then stepCnt + 1 else stepCnt

theorem lt_rounds_iff :
    ¬ (stepCnt < i ∨ (!forFlag ∧ i = stepCnt)) ↔ i < rounds stepCnt forFlag := by
  cases forFlag with
  | true =>
      simp only [rounds, Bool.not_true, Bool.false_eq_true, false_and, or_false, if_true]
      omega
  | false =>
      simp only [rounds, Bool.not_false, true_and, Bool.false_eq_true, if_false]
      omega

/-- One round of the loop. -/
theorem integerLoopFrom_round {s : Symbol} {cond : Option EnvCell} {block : List EnvCell}
    {cell : EnvCell} (hi : i < rounds stepCnt forFlag) (h0 : 0 ≤ i)
    (hstep : rounds stepCnt forFlag < 2 ^ 63)
    (hvalue : -2 ^ 63 ≤ stepValue fromInt64 toInt64 i ∧ stepValue fromInt64 toInt64 i < 2 ^ 63)
    (hstands : standing.round i = true) :
    integerLoopFrom standing ev (some s) fromInt64 toInt64 forFlag stepCnt cond block
        (fuel + 1) i cell = (do
      setContents s (.long (BitVec.ofInt 64 (stepValue fromInt64 toInt64 i)))
      let stop ← evaluateCond ev cond
      if !stop.isNil then pure stop
      else do
        let cell ← evaluateBlock ev .nil block
        integerLoopFrom standing ev (some s) fromInt64 toInt64 forFlag stepCnt cond block fuel
          (i + 1) cell) := by
  have hnext : -2 ^ 63 ≤ i + 1 ∧ i + 1 < 2 ^ 63 := by omega
  rw [integerLoopFrom, if_neg (lt_rounds_iff.mpr hi), int64_of_fits hvalue,
    int64_of_fits hnext, reads, if_pos hstands]
  rfl

/-- The loop from step `i` goes over the values from that step on. -/
theorem integerLoopFrom_eq {s : Symbol} {cond : Option EnvCell} {block : List EnvCell}
    {values : List Int} {k : Nat} {cell : EnvCell}
    (hvalues : values = (List.range' k values.length).map fun j : Nat =>
      stepValue fromInt64 toInt64 j)
    (hrounds : rounds stepCnt forFlag ≤ k + values.length)
    (hlast : values ≠ [] → rounds stepCnt forFlag = k + values.length)
    (hstep : rounds stepCnt forFlag < 2 ^ 63)
    (hfits : ∀ z ∈ values, -2 ^ 63 ≤ z ∧ z < 2 ^ 63) (hfuel : values.length < fuel)
    (hstands : Stands standing ev s cond block k values σ) :
    integerLoopFrom standing ev (some s) fromInt64 toInt64 forFlag stepCnt cond block fuel k
      cell σ = iterate ev s cond block values cell σ := by
  induction values generalizing k cell fuel σ with
  | nil =>
      obtain ⟨fuel, rfl⟩ := Nat.exists_eq_succ_of_ne_zero (Nat.ne_of_gt hfuel)
      have hstop : ¬ (k : Int) < rounds stepCnt forFlag := by
        simp only [List.length_nil] at hrounds
        omega
      rw [integerLoopFrom, if_pos (not_not.mp fun hno => hstop (lt_rounds_iff.mp hno))]
      rfl
  | cons value values ih =>
      obtain ⟨fuel, rfl⟩ := Nat.exists_eq_succ_of_ne_zero (Nat.ne_of_gt (Nat.zero_lt_of_lt hfuel))
      have hk := hlast (List.cons_ne_nil value values)
      rw [List.length_cons, List.range'_succ, List.map_cons] at hvalues
      obtain ⟨hvalue, hrest⟩ := List.cons.inj hvalues
      simp only [List.length_cons] at hk hrounds hfuel
      have hround : (k : Int) < rounds stepCnt forFlag := by omega
      have hvalueFits := hfits value List.mem_cons_self
      rw [hvalue] at hvalueFits
      obtain ⟨hnow, hlater⟩ := hstands
      have hcast : (k : Int) + 1 = ((k + 1 : Nat) : Int) := by push_cast; rfl
      rw [integerLoopFrom_round hround (Int.natCast_nonneg k) hstep hvalueFits hnow, iterate,
        ← hvalue]
      refine bind_congr_value fun _ σ₀ hset => bind_congr_value fun stop σ₁ hcond => ?_
      cases hstop : stop.isNil with
      | false => rfl
      | true =>
          refine bind_congr_value fun cell σ₂ hblock => ?_
          rw [hcast]
          exact ih hrest (by push_cast; omega) (fun _ => by push_cast; omega)
            (fun z hz => hfits z (List.mem_cons_of_mem value hz)) (by omega)
            (hlater σ₀ stop σ₁ cell σ₂ hset hcond hstop hblock)

theorem int64_bind_undefined {f : Int → EnvM β} (h : f z σ = .undefined) :
    (int64 z >>= f) σ = .undefined := by
  by_cases hz : -2 ^ 63 ≤ z ∧ z < 2 ^ 63
  · rw [int64_of_fits hz]
    exact h
  · rw [int64_of_not_fits hz]
    rfl

/-- The loop from step `k`, when its expression is moved in one of the rounds it comes to. -/
theorem integerLoopFrom_lost {s : Symbol} {cond : Option EnvCell} {block : List EnvCell}
    {values : List Int} {k : Nat} {cell : EnvCell}
    (hvalues : values = (List.range' k values.length).map fun j : Nat =>
      stepValue fromInt64 toInt64 j)
    (hlast : values ≠ [] → rounds stepCnt forFlag = k + values.length)
    (hfuel : values.length < fuel) (hmoved : ¬ Stands standing ev s cond block k values σ) :
    integerLoopFrom standing ev (some s) fromInt64 toInt64 forFlag stepCnt cond block fuel k
      cell σ = .undefined := by
  induction values generalizing k cell fuel σ with
  | nil => exact absurd trivial hmoved
  | cons value values ih =>
      obtain ⟨fuel, rfl⟩ := Nat.exists_eq_succ_of_ne_zero (Nat.ne_of_gt (Nat.zero_lt_of_lt hfuel))
      have hk := hlast (List.cons_ne_nil value values)
      rw [List.length_cons, List.range'_succ, List.map_cons] at hvalues
      obtain ⟨hvalue, hrest⟩ := List.cons.inj hvalues
      simp only [List.length_cons] at hk hfuel
      have hround : (k : Int) < rounds stepCnt forFlag := by omega
      rw [integerLoopFrom, if_neg (lt_rounds_iff.mpr hround), ← hvalue]
      refine int64_bind_undefined ?_
      cases hnow : standing.round k with
      | false => rfl
      | true =>
          -- this round runs, to the one in which the expression has been moved
          have hlater : ∃ σ₀ stop σ₁ cell σ₂,
              setContents s (.long (BitVec.ofInt 64 value)) σ = .value () σ₀ ∧
              evaluateCond ev cond σ₀ = .value stop σ₁ ∧ stop.isNil = true ∧
              evaluateBlock ev .nil block σ₁ = .value cell σ₂ ∧
              ¬ Stands standing ev s cond block (k + 1) values σ₂ := by
            by_contra hno
            refine hmoved ⟨hnow, fun σ₀ stop σ₁ cell σ₂ hset hcond hstop hblock => ?_⟩
            by_contra hlost
            exact hno ⟨σ₀, stop, σ₁, cell, σ₂, hset, hcond, hstop, hblock, hlost⟩
          obtain ⟨σ₀, stop, σ₁, cell, σ₂, hset, hcond, hstop, hblock, hlost⟩ := hlater
          have hloop : integerLoopFrom standing ev (some s) fromInt64 toInt64 forFlag stepCnt
              cond block fuel ((k + 1 : Nat) : Int) cell σ₂ = .undefined :=
            ih hrest (fun _ => by push_cast; omega) (by omega) hlost
          change (setContents s (.long (BitVec.ofInt 64 value)) >>= _) σ = _
          rw [bind_of_value hset]
          change (evaluateCond ev cond >>= _) σ₀ = _
          rw [bind_of_value hcond, hstop]
          change (evaluateBlock ev .nil block >>= _) σ₁ = _
          rw [bind_of_value hblock]
          refine int64_bind_undefined ?_
          push_cast at hloop
          exact hloop

/-- The loop of `p_sequence` from step `k` makes the cells of the values from there on. -/
theorem sequenceFrom_eq {values : List Int} {k : Nat}
    (hvalues : values = (List.range' k values.length).map fun j : Nat =>
      stepValue fromInt64 toInt64 j)
    (hcount : stepCnt + 1 = k + values.length) (hstep : stepCnt + 1 < 2 ^ 63)
    (hfits : ∀ z ∈ values, -2 ^ 63 ≤ z ∧ z < 2 ^ 63) (hfuel : values.length < fuel) :
    sequenceFrom fromInt64 toInt64 stepCnt fuel k σ =
      .value (values.map fun z => .long (BitVec.ofInt 64 z)) σ := by
  induction values generalizing k fuel with
  | nil =>
      obtain ⟨fuel, rfl⟩ := Nat.exists_eq_succ_of_ne_zero (Nat.ne_of_gt hfuel)
      simp only [List.length_nil] at hcount
      rw [sequenceFrom, if_pos (by omega)]
      rfl
  | cons value values ih =>
      obtain ⟨fuel, rfl⟩ := Nat.exists_eq_succ_of_ne_zero (Nat.ne_of_gt (Nat.zero_lt_of_lt hfuel))
      rw [List.length_cons, List.range'_succ, List.map_cons] at hvalues
      obtain ⟨hvalue, hrest⟩ := List.cons.inj hvalues
      simp only [List.length_cons] at hcount hfuel
      have hvalueFits := hfits value List.mem_cons_self
      rw [hvalue] at hvalueFits
      have hnext : -2 ^ 63 ≤ (k : Int) + 1 ∧ (k : Int) + 1 < 2 ^ 63 := by omega
      have hcast : (k : Int) + 1 = ((k + 1 : Nat) : Int) := by push_cast; rfl
      have hcells : sequenceFrom fromInt64 toInt64 stepCnt fuel ((k + 1 : Nat) : Int) σ = _ :=
        ih hrest (by push_cast; omega) (fun z hz => hfits z (List.mem_cons_of_mem value hz))
          (by omega)
      rw [sequenceFrom, if_neg (by omega), int64_of_fits hvalueFits, int64_of_fits hnext,
        ← hvalue]
      change (sequenceFrom fromInt64 toInt64 stepCnt fuel ((k : Int) + 1) >>= _) σ = _
      rw [hcast, bind_of_value hcells]
      rfl

/-- With `2 ^ 63 - 1` steps the counter passes the last one only by an overflow. -/
theorem sequenceFrom_endless {cells : List EnvCell}
    (hstep : stepCnt = 2 ^ 63 - 1) (hi : i < 2 ^ 63) :
    sequenceFrom fromInt64 toInt64 stepCnt fuel i σ ≠ .value cells σ' := by
  induction fuel generalizing i cells σ σ' with
  | zero =>
      intro hvalue
      cases hvalue
  | succ fuel ih =>
      intro hvalue
      rw [sequenceFrom, if_neg (by omega)] at hvalue
      obtain ⟨value, σ₁, -, hvalue⟩ := bind_eq_value_iff.mp hvalue
      obtain ⟨i', σ₂, hi', hvalue⟩ := bind_eq_value_iff.mp hvalue
      obtain ⟨rest, σ₃, hrest, -⟩ := bind_eq_value_iff.mp hvalue
      obtain ⟨hfits, rfl, rfl⟩ := int64_eq_value_iff.mp hi'
      exact ih hfits.2 hrest

theorem integerLoopFrom_endless {symbol : Option Symbol} {block : List EnvCell}
    {cell result : EnvCell} (hstep : stepCnt = 2 ^ 63 - 1) (hi : i < 2 ^ 63) :
    integerLoopFrom standing ev symbol fromInt64 toInt64 true stepCnt none block fuel i cell σ ≠
      .value result σ' := by
  induction fuel generalizing i cell σ with
  | zero =>
      intro hvalue
      cases hvalue
  | succ fuel ih =>
      intro hvalue
      have hround : i < rounds stepCnt true := by
        rw [rounds, if_pos rfl]
        omega
      rw [integerLoopFrom, if_neg (lt_rounds_iff.mpr hround)] at hvalue
      obtain ⟨value, σ₁, -, hvalue⟩ := bind_eq_value_iff.mp hvalue
      obtain ⟨_, σ₂, -, hvalue⟩ := bind_eq_value_iff.mp hvalue
      obtain ⟨_, σ₆, -, hvalue⟩ := bind_eq_value_iff.mp hvalue
      obtain ⟨stop, σ₃, hstop, hvalue⟩ := bind_eq_value_iff.mp hvalue
      cases hstop
      have hnil : ¬ (!EnvCell.nil.isNil) = true := Bool.false_ne_true
      rw [if_neg hnil] at hvalue
      obtain ⟨cell', σ₄, -, hvalue⟩ := bind_eq_value_iff.mp hvalue
      obtain ⟨i', σ₅, hi', hrest⟩ := bind_eq_value_iff.mp hvalue
      obtain ⟨hfits, rfl, rfl⟩ := int64_eq_value_iff.mp hi'
      exact ih hfits.2 hrest

end Rounds

/-! ### The ranges -/

section Ranges

variable {a b z : Int}

theorem length_span (a b : Int) : (span a b).length = (b - a).natAbs + 1 := by
  rw [span, List.length_map, List.length_range]

theorem mem_span (h : z ∈ span a b) : min a b ≤ z ∧ z ≤ max a b := by
  obtain ⟨k, hk, rfl⟩ := List.mem_map.mp h
  have hlt := List.mem_range.mp hk
  rw [stepValue]
  split
  · omega
  · omega

theorem mem_below {n : Int} (h : z ∈ below n) : 0 ≤ z ∧ z < n := by
  obtain ⟨k, hk, rfl⟩ := List.mem_map.mp h
  have hlt := List.mem_range.mp hk
  omega

theorem head?_span (a b : Int) : (span a b).head? = some a := by
  rw [span, List.range_succ_eq_map, List.map_cons, List.head?_cons, stepValue]
  simp

theorem getLast?_span (a b : Int) : (span a b).getLast? = some b := by
  rw [span, List.range_succ, List.map_append, List.map_singleton, List.getLast?_concat,
    stepValue]
  congr 1
  split
  · omega
  · omega

/-- The difference that `loop` and `p_sequence` take. -/
theorem difference_eq (a b : Int) : (if a < b then b - a else a - b) = (b - a).natAbs := by
  split
  · omega
  · omega

end Ranges

/-! ### The forms -/

section Forms

variable {α : Type} {S : Settings} {standing : Standing} {ev : EnvCell → EnvM EnvCell}
  {σ σ₁ σ' : EnvState} {s : Symbol} {limits : EnvM α} {x : α} {a b n : Word} {fuel : Nat}
  {fromCell toCell : EnvCell} {block : List EnvCell}

theorem LimitsAre.starts (h : LimitsAre S s limits x σ σ₁) (rest : List EnvCell) :
    ∃ σ₀, limits σ₀ = .value x σ₁ ∧ ∀ block : List EnvCell,
      getPushSymbolParam S (.expression (.symbol s :: rest) :: block) σ =
        .value (some s, rest) σ₀ := by
  obtain ⟨hprotected, hvalue⟩ := h
  obtain ⟨⟨⟩, σ₂, hpush, hvalue⟩ := bind_eq_value_iff.mp hvalue
  obtain ⟨⟨⟩, σ₃, hset, hvalue⟩ := bind_eq_value_iff.mp hvalue
  refine ⟨σ₃, hvalue, fun block => ?_⟩
  have hread : protected_ s σ = .value false σ := by rw [protected_, hprotected]
  rw [getPushSymbolParam, bind_of_value hread, if_neg Bool.false_ne_true,
    bind_of_value hpush, bind_of_value hset]
  rfl

theorem getInteger64_long {params : List EnvCell}
    (h : ev (params.headD .nil) σ = .value (.long n) σ₁) :
    getInteger64 S ev params σ = .value (n.toInt, params.tail) σ₁ := by
  rw [getInteger64, bind_of_value (m := evaluateParam ev params) h]
  rfl

theorem evaluateBoth_eq_value
    (h : evaluateBoth ev fromCell toCell σ = .value (.long a, .long b) σ₁) :
    ∃ σ₂, getInteger64 S ev [fromCell, toCell] σ = .value (a.toInt, [toCell]) σ₂ ∧
      getInteger64 S ev [toCell] σ₂ = .value (b.toInt, []) σ₁ := by
  obtain ⟨value, σ₂, hfrom, h⟩ := bind_eq_value_iff.mp h
  obtain ⟨value', σ₃, hto, h⟩ := bind_eq_value_iff.mp h
  cases h
  exact ⟨σ₂, getInteger64_long hfrom, getInteger64_long hto⟩

/-- `for` is its loop over the values, with the difference of the limits as its step
count. -/
theorem for_eq (h : LimitsAre S s (evaluateBoth ev fromCell toCell) (.long a, .long b) σ σ₁) :
    integerLoop S standing ev fuel (.expression [.symbol s, fromCell, toCell] :: block) true σ =
      (reads standing.limits >>= fun _ => int64 (b.toInt - a.toInt).natAbs >>= fun stepCnt =>
        integerLoopFrom standing ev (some s) a.toInt b.toInt true stepCnt none block fuel 0
          .nil >>= endLoop (some s)) σ₁ := by
  obtain ⟨σ₀, hlimits, hpush⟩ := h.starts [fromCell, toCell]
  obtain ⟨σ₂, hfrom, hto⟩ := evaluateBoth_eq_value (S := S) hlimits
  rw [integerLoop, bind_of_value (hpush block)]
  change (integerSteps S standing ev [fromCell, toCell] true >>= _) σ₀ = _
  have hsteps : integerSteps S standing ev [fromCell, toCell] true σ₀ =
      (reads standing.limits >>= fun _ => int64 (b.toInt - a.toInt).natAbs >>= fun stepCnt =>
        pure (a.toInt, b.toInt, stepCnt, none)) σ₁ := by
    rw [integerSteps, if_pos rfl, bind_of_value hfrom]
    dsimp only
    cases standing.limits with
    | false => rw [reads_false_bind, reads_false_bind]
    | true =>
        rw [reads_true_bind, reads_true_bind, bind_of_value hto]
        dsimp only
        rw [difference_eq]
  change EnvM.bind _ _ σ₀ = _
  rw [EnvM.bind, hsteps]
  cases standing.limits with
  | false => rw [reads_false_bind, reads_false_bind]
  | true =>
      rw [reads_true_bind, reads_true_bind]
      by_cases hfits : -2 ^ 63 ≤ ((b.toInt - a.toInt).natAbs : Int) ∧
          ((b.toInt - a.toInt).natAbs : Int) < 2 ^ 63
      · rw [int64_of_fits hfits]
        rfl
      · rw [int64_of_not_fits hfits]
        rfl

/-- `dotimes` is its loop over the numbers below its count. -/
theorem dotimes_eq {count : EnvCell} {cond : Option EnvCell}
    (h : LimitsAre S s (ev count) (.long n) σ σ₁) :
    integerLoop S standing ev fuel (.expression (.symbol s :: count :: cond.toList) :: block)
        false σ =
      (reads standing.limits >>= fun _ =>
        integerLoopFrom standing ev (some s) 0 0 false n.toInt cond block fuel 0 .nil >>=
          endLoop (some s)) σ₁ := by
  obtain ⟨σ₀, hlimits, hpush⟩ := h.starts (count :: cond.toList)
  have hcount : getInteger64 S ev (count :: cond.toList) σ₀ =
      .value (n.toInt, cond.toList) σ₁ := getInteger64_long hlimits
  have hsteps : integerSteps S standing ev (count :: cond.toList) false σ₀ =
      (reads standing.limits >>= fun _ => pure (0, 0, n.toInt, cond)) σ₁ := by
    rw [integerSteps, if_neg Bool.false_ne_true, bind_of_value hcount]
    cases cond with
    | none => rfl
    | some cond => rfl
  rw [integerLoop, bind_of_value (hpush block)]
  change EnvM.bind (integerSteps S standing ev (count :: cond.toList) false) _ σ₀ = _
  rw [EnvM.bind, hsteps]
  cases standing.limits with
  | false => rfl
  | true => rfl

/-- `sequence` is its first cell and its loop over the other values. -/
theorem sequence_eq
    (h : evaluateBoth ev fromCell toCell σ = .value (.long a, .long b) σ₁) :
    pSequence S standing ev fuel [fromCell, toCell] σ =
      (reads standing.limits >>= fun _ => int64 (b.toInt - a.toInt).natAbs >>= fun stepCnt =>
        sequenceFrom a.toInt b.toInt stepCnt fuel 1 >>= fun cells =>
          pure (.expression (.long (BitVec.ofInt 64 a.toInt) :: cells))) σ₁ := by
  obtain ⟨σ₂, hfrom, hto⟩ := evaluateBoth_eq_value (S := S) h
  rw [pSequence, bind_of_value hfrom]
  dsimp only
  cases standing.limits with
  | false => rw [reads_false_bind, reads_false_bind]
  | true =>
      rw [reads_true_bind, reads_true_bind, bind_of_value hto]
      dsimp only
      rw [difference_eq, ← Int.natAbs_neg, Int.neg_sub]

theorem fits_toInt (n : Word) : -2 ^ 63 ≤ n.toInt ∧ n.toInt < 2 ^ 63 :=
  ⟨BitVec.le_toInt n, BitVec.toInt_lt⟩

theorem span_fits {z : Int} (h : z ∈ span a.toInt b.toInt) : -2 ^ 63 ≤ z ∧ z < 2 ^ 63 := by
  have hbetween := mem_span h
  have ha := fits_toInt a
  have hb := fits_toInt b
  omega

theorem below_fits {z : Int} (h : z ∈ below n.toInt) : -2 ^ 63 ≤ z ∧ z < 2 ^ 63 := by
  have hbelow := mem_below h
  have hn := fits_toInt n
  omega

theorem toInt_of_fits {z : Int} (h : -2 ^ 63 ≤ z ∧ z < 2 ^ 63) :
    (BitVec.ofInt 64 z).toInt = z := by
  rw [BitVec.toInt_ofInt]
  exact Int.bmod_eq_of_le (by omega) (by omega)

theorem int64_natAbs_of_lt (h : (b.toInt - a.toInt).natAbs < 2 ^ 63) :
    int64 (b.toInt - a.toInt).natAbs = pure ((b.toInt - a.toInt).natAbs : Int) :=
  int64_of_fits ⟨by omega, by omega⟩

theorem span_eq_range' (a b : Int) :
    span a b = (List.range' 0 (span a b).length).map fun j : Nat => stepValue a b j := by
  rw [length_span, ← List.range_eq_range']
  rfl

theorem length_below (n : Int) : (below n).length = n.toNat := by
  rw [below, List.length_map, List.length_range]

theorem below_eq_range' (n : Int) :
    below n = (List.range' 0 (below n).length).map fun j : Nat => stepValue 0 0 j := by
  rw [length_below, ← List.range_eq_range', below]
  refine List.map_congr_left fun k _ => ?_
  rw [stepValue, if_neg (Int.lt_irrefl 0), Int.zero_add]

theorem rounds_for (a b : Int) :
    rounds (b - a).natAbs true = ((0 : Nat) : Int) + (span a b).length := by
  rw [length_span, rounds, if_pos rfl]
  push_cast
  omega

theorem rounds_dotimes {n : Int} (h : below n ≠ []) :
    rounds n false = ((0 : Nat) : Int) + (below n).length := by
  have hpos : 0 < (below n).length := List.length_pos_iff.mpr h
  rw [length_below] at hpos
  rw [length_below, rounds, if_neg Bool.false_ne_true]
  push_cast
  omega

theorem forRight_of_lt (h : (b.toInt - a.toInt).natAbs < 2 ^ 63 - 1) : ForRight a b := by
  intro S standing depth s fromCell toCell block σ σ₁ hlimits hstanding hstands fuel hfuel
  have hloop : integerLoopFrom standing (evaluateExpression S depth) (some s) a.toInt b.toInt
      true (b.toInt - a.toInt).natAbs none block fuel ((0 : Nat) : Int) .nil σ₁ =
        iterate (evaluateExpression S depth) s none block (span a.toInt b.toInt) .nil σ₁ := by
    refine integerLoopFrom_eq (span_eq_range' _ _) (rounds_for _ _).le
      (fun _ => rounds_for _ _) ?_ (fun z hz => span_fits hz) hfuel hstands
    rw [rounds, if_pos rfl]
    omega
  rw [for_eq hlimits, int64_natAbs_of_lt (by omega), hstanding, reads_true_bind]
  change EnvM.bind (integerLoopFrom standing (evaluateExpression S depth) (some s) a.toInt
    b.toInt true (b.toInt - a.toInt).natAbs none block fuel ((0 : Nat) : Int) .nil) _ σ₁ = _
  rw [EnvM.bind, hloop]
  rfl

theorem dotimesRight (n : Word) : DotimesRight n := by
  intro S standing depth s count cond block σ σ₁ hlimits hstanding hstands fuel hfuel
  have hn := fits_toInt n
  have hloop : integerLoopFrom standing (evaluateExpression S depth) (some s) 0 0 false n.toInt
      cond block fuel ((0 : Nat) : Int) .nil σ₁ =
        iterate (evaluateExpression S depth) s cond block (below n.toInt) .nil σ₁ := by
    refine integerLoopFrom_eq (below_eq_range' _) ?_ rounds_dotimes ?_
      (fun z hz => below_fits hz) hfuel hstands
    · rw [length_below, rounds, if_neg Bool.false_ne_true]
      push_cast
      omega
    · rw [rounds, if_neg Bool.false_ne_true]
      exact hn.2
  rw [dotimes_eq hlimits, hstanding, reads_true_bind]
  change EnvM.bind (integerLoopFrom standing (evaluateExpression S depth) (some s) 0 0 false
    n.toInt cond block fuel ((0 : Nat) : Int) .nil) _ σ₁ = _
  rw [EnvM.bind, hloop]
  rfl

theorem lostWhenMoved (a b n : Word) : LostWhenMoved a b n where
  for_ S standing depth s fromCell toCell block σ σ₁ hlimits hmoved fuel hfuel := by
    rw [for_eq hlimits]
    cases hstanding : standing.limits with
    | false => exact reads_false_bind
    | true =>
        rw [reads_true_bind]
        refine int64_bind_undefined ?_
        exact bind_of_undefined (integerLoopFrom_lost (span_eq_range' _ _)
          (fun _ => rounds_for _ _) hfuel fun hstands => hmoved ⟨hstanding, hstands⟩)
  sequence S standing depth fuel fromCell toCell σ σ₁ hlimits hmoved := by
    rw [sequence_eq hlimits, Bool.not_eq_true _ |>.mp hmoved, reads_false_bind]
  dotimes S standing depth s count cond block σ σ₁ hlimits hmoved fuel hfuel := by
    rw [dotimes_eq hlimits]
    cases hstanding : standing.limits with
    | false => exact reads_false_bind
    | true =>
        rw [reads_true_bind]
        exact bind_of_undefined (integerLoopFrom_lost (below_eq_range' _) rounds_dotimes hfuel
          fun hstands => hmoved ⟨hstanding, hstands⟩)

theorem sequenceRight_of_lt (h : (b.toInt - a.toInt).natAbs < 2 ^ 63 - 1) :
    SequenceRight a b := by
  intro S standing depth fromCell toCell σ σ₁ hlimits hstanding fuel hfuel
  have hlength := length_span a.toInt b.toInt
  obtain ⟨values, hspan⟩ : ∃ values, span a.toInt b.toInt = a.toInt :: values :=
    List.head?_eq_some_iff.mp (head?_span a.toInt b.toInt)
  have hvalues : values.length = (b.toInt - a.toInt).natAbs := by
    rw [hspan, List.length_cons] at hlength
    omega
  have hcells : sequenceFrom a.toInt b.toInt (b.toInt - a.toInt).natAbs fuel ((1 : Nat) : Int)
      σ₁ = .value (values.map fun z => .long (BitVec.ofInt 64 z)) σ₁ := by
    refine sequenceFrom_eq ?_ ?_ (by omega) (fun z hz => ?_) (by omega)
    · rw [span, List.range_eq_range', List.range'_succ, List.map_cons] at hspan
      rw [hvalues]
      exact (List.cons.inj hspan).2.symm
    · rw [hvalues]
      push_cast
      omega
    · exact span_fits (by rw [hspan]; exact List.mem_cons_of_mem _ hz)
  rw [sequence_eq hlimits, int64_natAbs_of_lt (by omega), hspan, List.map_cons, hstanding,
    reads_true_bind]
  change (sequenceFrom a.toInt b.toInt (b.toInt - a.toInt).natAbs fuel 1 >>= _) σ₁ = _
  have hone : ((1 : Nat) : Int) = 1 := rfl
  rw [hone] at hcells
  rw [bind_of_value hcells]
  rfl

theorem popEnvironment_of_stack {v : EnvCell} {rest : List (EnvCell × Symbol)}
    (h : σ.env.stack = (v, s) :: rest) :
    popEnvironment σ = .value s { σ with env :=
      { σ.env with contents := Function.update σ.env.contents s v, stack := rest } } := by
  rw [popEnvironment, Bindings.pop, h]

theorem abandoned_popEnvironment (h : popEnvironment σ = .value s σ') :
    σ'.abandoned = σ.abandoned := by
  rw [popEnvironment] at h
  cases hpop : σ.env.pop with
  | none =>
      rw [hpop] at h
      cases h
  | some popped =>
      rw [hpop] at h
      cases h
      rfl

/-! ### Ranges that are too wide -/

theorem iterate_empty (ev : EnvCell → EnvM EnvCell) (values : List Int) (cell : EnvCell)
    (σ : EnvState) :
    ∃ cell' σ', iterate ev s none [] values cell σ = .value cell' σ' ∧
      σ'.env.stack = σ.env.stack := by
  induction values generalizing cell σ with
  | nil => exact ⟨cell, σ, rfl, rfl⟩
  | cons value values ih =>
      exact ih .nil { σ with env := σ.env.set s (.long (BitVec.ofInt 64 value)) }

/-- The step count overflows, or the counter after the last step does. -/
theorem steps_overflow (h : ¬ (b.toInt - a.toInt).natAbs < 2 ^ 63 - 1) :
    int64 (b.toInt - a.toInt).natAbs = undefined ∨
      int64 (b.toInt - a.toInt).natAbs = pure (2 ^ 63 - 1) := by
  by_cases hlast : (b.toInt - a.toInt).natAbs = 2 ^ 63 - 1
  · right
    rw [hlast]
    exact int64_of_fits (by omega)
  · exact .inl (int64_of_not_fits (by omega))

/-- The state in which the limits of a loop with `x` are evaluated. -/
def loopState : EnvState :=
  { startState 0 with
    env := ((startState 0).env.push (mainSymbol "x")).set (mainSymbol "x") .nil }

/-- No collection moves the expression. -/
def standingStill : Standing := ⟨true, fun _ => true⟩

theorem stands_still (ev : EnvCell → EnvM EnvCell) (cond : Option EnvCell)
    (block : List EnvCell) (k : Nat) (values : List Int) (σ : EnvState) :
    Stands standingStill ev s cond block k values σ := by
  induction values generalizing k σ with
  | nil => trivial
  | cons value values ih => exact ⟨rfl, fun _ _ _ _ σ₂ _ _ _ _ => ih (k + 1) σ₂⟩

theorem lt_of_forRight (h : ForRight a b) : (b.toInt - a.toInt).natAbs < 2 ^ 63 - 1 := by
  by_contra hwide
  have hlimits : LimitsAre startSettings (mainSymbol "x")
      (evaluateBoth (evaluateExpression startSettings 1) (.long a) (.long b))
      (.long a, .long b) (startState 0) loopState := ⟨by decide, rfl⟩
  have hloop := h startSettings standingStill 1 (mainSymbol "x") (.long a) (.long b) []
    (startState 0) loopState hlimits rfl (stands_still _ _ _ _ _ _) _ (Nat.lt_succ_self _)
  obtain ⟨cell, σ₁, hiterate, hstack⟩ := iterate_empty (s := mainSymbol "x")
    (evaluateExpression startSettings 1) (span a.toInt b.toInt) .nil loopState
  rw [for_eq hlimits, bind_of_value hiterate] at hloop
  have hreads : standingStill.limits = true := rfl
  rw [hreads, reads_true_bind] at hloop
  have hpop : ∃ result σ₂, endLoop (some (mainSymbol "x")) cell σ₁ = .value result σ₂ := by
    have hpopped := popEnvironment_of_stack hstack
    rw [endLoop, bind_of_value (m := popLoopSymbol (some (mainSymbol "x"))) hpopped]
    exact ⟨_, _, rfl⟩
  obtain ⟨result, σ₂, hvalue⟩ := hpop
  rw [hvalue] at hloop
  rcases steps_overflow hwide with hundefined | hlast
  · rw [hundefined] at hloop
    cases hloop
  · rw [hlast] at hloop
    obtain ⟨stepCnt, σ₃, hpure, hrounds⟩ := bind_eq_value_iff.mp hloop
    cases hpure
    obtain ⟨cell', σ₄, hendless, -⟩ := bind_eq_value_iff.mp hrounds
    exact integerLoopFrom_endless rfl (by decide) hendless

theorem lt_of_sequenceRight (h : SequenceRight a b) :
    (b.toInt - a.toInt).natAbs < 2 ^ 63 - 1 := by
  by_contra hwide
  have hlimits : evaluateBoth (evaluateExpression startSettings 1) (.long a) (.long b)
      (startState 0) = .value (.long a, .long b) (startState 0) := rfl
  have hvalue := h startSettings standingStill 1 (.long a) (.long b) (startState 0)
    (startState 0) hlimits rfl _ (Nat.le_refl _)
  rw [sequence_eq hlimits] at hvalue
  have hreads : standingStill.limits = true := rfl
  rw [hreads, reads_true_bind] at hvalue
  rcases steps_overflow hwide with hundefined | hlast
  · rw [hundefined] at hvalue
    cases hvalue
  · rw [hlast] at hvalue
    obtain ⟨stepCnt, σ₁, hpure, hrounds⟩ := bind_eq_value_iff.mp hvalue
    cases hpure
    obtain ⟨cells, σ₂, hendless, -⟩ := bind_eq_value_iff.mp hrounds
    exact sequenceFrom_endless rfl (by decide) hendless

end Forms

/-! ### The outer value -/

section OuterValue

variable {α β : Type} {S : Settings} {standing : Standing} {ev : EnvCell → EnvM EnvCell}
  {m : EnvM α} {f : α → EnvM β} {stack : List (EnvCell × Symbol)}

/-- When the computation returns, the environment stack is as before, unless a form has
been left in the middle of its bindings. -/
def KeepsStack (m : EnvM α) : Prop :=
  ∀ σ x σ', m σ = .value x σ' →
    σ'.abandoned = true ∨ σ.abandoned = false ∧ σ'.env.stack = σ.env.stack

theorem KeepsStack.bind (hm : KeepsStack m) (hf : ∀ x, KeepsStack (f x)) :
    KeepsStack (m >>= f) := by
  intro σ y σ' hvalue
  obtain ⟨x, σ₁, hx, hy⟩ := bind_eq_value_iff.mp hvalue
  rcases hf x σ₁ y σ' hy with habandoned | ⟨hkept, hstack⟩
  · exact .inl habandoned
  · rcases hm σ x σ₁ hx with habandoned | ⟨hkept', hstack'⟩
    · rw [habandoned] at hkept
      cases hkept
    · exact .inr ⟨hkept', hstack.trans hstack'⟩

theorem Keeps.keepsStack (hm : Keeps m) : KeepsStack m := by
  intro σ x σ' hvalue
  have hends := hm.ends σ
  rw [hvalue] at hends
  rcases hends with habandoned | ⟨hσ, bindings, more, hnames, hpres⟩
  · exact .inl habandoned
  · obtain rfl : bindings = [] := List.map_eq_nil_iff.1 hnames
    exact .inr ⟨hσ, hpres.stack⟩

theorem keepsStack_pure (x : α) : KeepsStack (pure x : EnvM α) := (Keeps.pure x).keepsStack

theorem keepsStack_setLoopSymbol (symbol : Option Symbol) (value : EnvCell) :
    KeepsStack (setLoopSymbol symbol value) := by
  intro σ x σ' hvalue
  cases symbol with
  | none => cases hvalue
  | some s =>
      cases hvalue
      cases habandoned : σ.abandoned with
      | true => exact .inl rfl
      | false => exact .inr ⟨rfl, rfl⟩

theorem keepsStack_int64 (z : Int) : KeepsStack (int64 z) := by
  rw [int64]
  exact (Keeps.ite (Keeps.pure z) keeps_undefined).keepsStack

theorem keepsStack_reads (stands : Bool) : KeepsStack (reads stands) := by
  rw [reads]
  exact (Keeps.ite (Keeps.pure ()) keeps_undefined).keepsStack

variable (hev : ∀ cell, Keeps (ev cell))

include hev

theorem keepsStack_integerLoopFrom (symbol : Option Symbol) (fromInt64 toInt64 : Int)
    (forFlag : Bool) (stepCnt : Int) (cond : Option EnvCell) (block : List EnvCell)
    (fuel : Nat) (i : Int) (cell : EnvCell) :
    KeepsStack
      (integerLoopFrom standing ev symbol fromInt64 toInt64 forFlag stepCnt cond block fuel i
        cell) := by
  have hcond : Keeps (evaluateCond ev cond) := by
    cases cond with
    | none => exact Keeps.pure _
    | some cond => exact hev cond
  induction fuel generalizing i cell with
  | zero => exact keeps_running.keepsStack
  | succ fuel ih =>
      rw [integerLoopFrom]
      split
      · exact keepsStack_pure cell
      · refine (keepsStack_int64 _).bind fun value => ?_
        refine (keepsStack_setLoopSymbol symbol _).bind fun _ => ?_
        refine (keepsStack_reads _).bind fun _ => ?_
        refine hcond.keepsStack.bind fun stop => ?_
        split
        · exact keepsStack_pure stop
        · refine (keeps_evaluateBlock hev .nil block).keepsStack.bind fun cell => ?_
          exact (keepsStack_int64 _).bind fun i => ih i cell

theorem keepsStack_integerSteps (params : List EnvCell) (forFlag : Bool) :
    KeepsStack (integerSteps S standing ev params forFlag) := by
  rw [integerSteps]
  split
  · refine (keeps_getInteger64 hev params).keepsStack.bind fun ⟨fromInt64, params⟩ => ?_
    refine (keepsStack_reads _).bind fun _ => ?_
    refine (keeps_getInteger64 hev params).keepsStack.bind fun ⟨toInt64, _⟩ => ?_
    exact (keepsStack_int64 _).bind fun stepCnt => keepsStack_pure _
  · refine (keeps_getInteger64 hev params).keepsStack.bind fun ⟨stepCnt, cond⟩ => ?_
    exact (keepsStack_reads _).bind fun _ => keepsStack_pure _

end OuterValue

theorem outerValueKept : OuterValueKept := by
  intro S standing depth fuel s limits block forFlag σ σ' cell hprotected hvalue hkept
  have hev := keeps_evaluateExpression S depth
  obtain ⟨⟨symbol, rest⟩, σ₁, hpush, hvalue⟩ := bind_eq_value_iff.mp hvalue
  obtain ⟨⟨fromInt64, toInt64, stepCnt, cond⟩, σ₂, hsteps, hvalue⟩ :=
    bind_eq_value_iff.mp hvalue
  obtain ⟨result, σ₃, hloop, hend⟩ := bind_eq_value_iff.mp hvalue
  -- the symbol has been pushed
  have hread : protected_ s σ = .value false σ := by rw [protected_, hprotected]
  rw [getPushSymbolParam, bind_of_value hread, if_neg Bool.false_ne_true] at hpush
  obtain ⟨⟨⟩, σ₄, hpushed, hpush⟩ := bind_eq_value_iff.mp hpush
  cases hpush
  rw [pushEnvironment] at hpushed
  split at hpushed
  · cases hpushed
    have hkeeps : KeepsStack
        (integerSteps S standing (evaluateExpression S depth) limits forFlag >>= fun steps =>
          integerLoopFrom standing (evaluateExpression S depth) (some s) steps.1 steps.2.1
          forFlag steps.2.2.1 steps.2.2.2 block fuel 0 .nil) :=
      (keepsStack_integerSteps hev limits forFlag).bind fun steps =>
        keepsStack_integerLoopFrom hev _ _ _ _ _ _ _ _ _ _
    have hstack := hkeeps _ result σ₃ (bind_eq_value_iff.mpr ⟨_, σ₂, hsteps, hloop⟩)
    -- and is the first to be popped
    obtain ⟨t, σ₅, hpop, hend⟩ := bind_eq_value_iff.mp hend
    cases hend
    have habandoned := abandoned_popEnvironment hpop
    rcases hstack with hleft | ⟨-, hstack⟩
    · rw [← habandoned, hkept] at hleft
      cases hleft
    · have hpopped := popEnvironment_of_stack hstack
      rw [popLoopSymbol, hpopped] at hpop
      cases hpop
      exact ⟨Function.update_self .., rfl⟩
  · cases hpushed

/-! ### `loop` with words that wrap around -/

section Refinement

variable {α β : Type} {m m' : EnvM α} {f f' : α → EnvM β} {S : Settings}
  {standing : Standing} {ev : EnvCell → EnvM EnvCell} {x : α}

/-- From each state `m` is undefined or ends as `m'` does. -/
def DefinedAs (m m' : EnvM α) : Prop := ∀ σ, m σ = .undefined ∨ m σ = m' σ

theorem DefinedAs.refl (m : EnvM α) : DefinedAs m m := fun _ => .inr rfl

theorem DefinedAs.trans {m'' : EnvM α} (h : DefinedAs m m') (h' : DefinedAs m' m'') :
    DefinedAs m m'' := by
  intro σ
  rcases h σ with hundefined | hsame
  · exact .inl hundefined
  · rw [hsame]
    exact h' σ

theorem DefinedAs.bind_of_value (hm : DefinedAs m m')
    (hf : ∀ σ x σ', m σ = .value x σ' → DefinedAs (f x) (f' x)) :
    DefinedAs (m >>= f) (m' >>= f') := by
  intro σ
  rcases hm σ with hundefined | hsame
  · exact .inl (bind_of_undefined hundefined)
  · change EnvM.bind m f σ = .undefined ∨ EnvM.bind m f σ = EnvM.bind m' f' σ
    rw [EnvM.bind, EnvM.bind, ← hsame]
    cases hmσ : m σ with
    | value x σ₁ => exact hf σ x σ₁ hmσ σ₁
    | raised j σ₁ => exact .inr rfl
    | undefined => exact .inr rfl
    | running => exact .inr rfl

theorem DefinedAs.bind (hm : DefinedAs m m') (hf : ∀ x, DefinedAs (f x) (f' x)) :
    DefinedAs (m >>= f) (m' >>= f') :=
  hm.bind_of_value fun _ x _ _ => hf x

theorem definedAs_int64 {z : Int} {f : Int → EnvM β} {m' : EnvM β}
    (h : -2 ^ 63 ≤ z ∧ z < 2 ^ 63 → DefinedAs (f z) m') : DefinedAs (int64 z >>= f) m' := by
  intro σ
  by_cases hz : -2 ^ 63 ≤ z ∧ z < 2 ^ 63
  · rw [int64_of_fits hz]
    exact h hz σ
  · rw [int64_of_not_fits hz]
    exact .inl rfl

theorem definedAs_reads {stands : Bool} {m m' : EnvM β} (h : DefinedAs m m') :
    DefinedAs (reads stands >>= fun _ => m) m' := by
  intro σ
  cases stands with
  | false => exact .inl rfl
  | true => exact h σ

theorem definedAs_ite {c : Prop} [Decidable c] {n n' : EnvM α} (hm : DefinedAs m m')
    (hn : DefinedAs n n') : DefinedAs (if c then m else n) (if c then m' else n') := by
  split
  · exact hm
  · exact hn

theorem integerLoopFrom_definedAs (symbol : Option Symbol) (fromInt64 toInt64 : Int)
    (forFlag : Bool) (stepCnt : Int) (cond : Option EnvCell) (block : List EnvCell)
    (fuel : Nat) (i : Int) (cell : EnvCell) :
    DefinedAs
      (integerLoopFrom standing ev symbol fromInt64 toInt64 forFlag stepCnt cond block fuel i
        cell)
      (loopFrom ev symbol (fun i => .long (BitVec.ofInt 64 (stepValue fromInt64 toInt64 i)))
        forFlag stepCnt cond block fuel i cell) := by
  induction fuel generalizing i cell with
  | zero => exact .refl _
  | succ fuel ih =>
      rw [integerLoopFrom, loopFrom]
      refine definedAs_ite (.refl _) (definedAs_int64 fun _ => ?_)
      refine (DefinedAs.refl _).bind fun _ => definedAs_reads ?_
      have hrest : ∀ cell : EnvCell, DefinedAs
          (int64 (i + 1) >>= fun i =>
            integerLoopFrom standing ev symbol fromInt64 toInt64 forFlag stepCnt cond block fuel
              i cell)
          (loopFrom ev symbol
            (fun i => .long (BitVec.ofInt 64 (stepValue fromInt64 toInt64 i)))
            forFlag stepCnt cond block fuel (i + 1) cell) :=
        fun cell => definedAs_int64 fun _ => ih (i + 1) cell
      cases cond with
      | none =>
          exact (DefinedAs.refl _).bind fun stop => definedAs_ite (.refl _)
            ((DefinedAs.refl _).bind hrest)
      | some cond =>
          exact (DefinedAs.refl _).bind fun stop => definedAs_ite (.refl _)
            ((DefinedAs.refl _).bind hrest)

theorem bind_assoc {γ : Type} (m : EnvM α) (f : α → EnvM β) (g : β → EnvM γ) :
    m >>= f >>= g = m >>= fun x => f x >>= g := by
  funext σ
  change EnvM.bind (EnvM.bind m f) g σ = EnvM.bind m (fun x => EnvM.bind (f x) g) σ
  simp only [EnvM.bind]
  cases m σ with
  | value x σ₁ => rfl
  | raised j σ₁ => rfl
  | undefined => rfl
  | running => rfl

/-- The values that `loop` takes from its limits. -/
theorem integerSteps_definedAs (S : Settings) (standing : Standing)
    (ev : EnvCell → EnvM EnvCell) {params : List EnvCell} (h : params.length ≤ 2) (forFlag : Bool) :
    DefinedAs
      (integerSteps S standing ev params forFlag >>= fun steps => pure (some (steps.2.2.1,
        fun i => .long (BitVec.ofInt 64 (stepValue steps.1 steps.2.1 i)), steps.2.2.2)))
      (loopSteps S ev params forFlag) := by
  rw [loopSteps, if_pos h, integerSteps]
  cases forFlag with
  | true =>
      rw [if_pos rfl, if_pos rfl, bind_assoc]
      refine (DefinedAs.refl _).bind fun (fromInt64, params) => ?_
      rw [bind_assoc]
      refine definedAs_reads ?_
      rw [bind_assoc]
      refine (DefinedAs.refl _).bind fun (toInt64, _) => ?_
      rw [bind_assoc]
      refine definedAs_int64 fun hfits => ?_
      dsimp only
      rw [toInt_of_fits hfits]
      exact .refl _
  | false =>
      rw [if_neg Bool.false_ne_true, if_neg Bool.false_ne_true, bind_assoc]
      refine (DefinedAs.refl _).bind fun (stepCnt, cond) => ?_
      rw [bind_assoc]
      refine definedAs_reads ?_
      have hvalue : ∀ i : Int, stepValue 0 0 i = i := by
        intro i
        rw [stepValue, if_neg (Int.lt_irrefl 0), Int.zero_add]
      have hnext : (fun i => EnvCell.long (BitVec.ofInt 64 (stepValue 0 0 i))) =
          fun i => .long (BitVec.ofInt 64 i) := by
        funext i
        rw [hvalue]
      dsimp only
      change DefinedAs (pure (some (stepCnt, _, cond.head?))) _
      rw [hnext]
      exact .refl _

theorem length_getPushSymbolParam {s : Symbol} {limits block : List EnvCell}
    {symbol : Option Symbol} {rest : List EnvCell} {σ σ' : EnvState}
    (h : getPushSymbolParam S (.expression (.symbol s :: limits) :: block) σ =
      .value (symbol, rest) σ') : rest.length ≤ limits.length := by
  rw [getPushSymbolParam] at h
  obtain ⟨locked, σ₁, -, h⟩ := bind_eq_value_iff.mp h
  split at h
  · obtain ⟨_, σ₂, -, h⟩ := bind_eq_value_iff.mp h
    obtain ⟨_, σ₃, -, h⟩ := bind_eq_value_iff.mp h
    cases h
    exact Nat.zero_le _
  · obtain ⟨_, σ₂, -, h⟩ := bind_eq_value_iff.mp h
    obtain ⟨_, σ₃, -, h⟩ := bind_eq_value_iff.mp h
    cases h
    exact Nat.le_refl _

/-- What `loop` does after its steps have been counted. -/
def loopRest (ev : EnvCell → EnvM EnvCell) (symbol : Option Symbol) (forFlag : Bool)
    (block : List EnvCell) (fuel : Nat) :
    Option (Int × (Int → EnvCell) × Option EnvCell) → EnvM EnvCell
  | none => pure .nil
  | some (stepCnt, next, cond) => do
      let cell ← loopFrom ev symbol next forFlag stepCnt cond block fuel 0 .nil
      endLoop symbol cell

/-- As long as no operation overflows, `integerLoop` is `loop`. -/
theorem integerLoop_definedAs {s : Symbol} {limits block : List EnvCell} (forFlag : Bool)
    (h : limits.length ≤ 2) (fuel : Nat) :
    DefinedAs
      (integerLoop S standing ev fuel (.expression (.symbol s :: limits) :: block) forFlag)
      (loop S ev fuel (.expression (.symbol s :: limits) :: block) forFlag) := by
  refine (DefinedAs.refl _).bind_of_value fun σ (symbol, rest) σ' hpush => ?_
  have hrest : rest.length ≤ 2 := (length_getPushSymbolParam hpush).trans h
  have hsteps := (integerSteps_definedAs S standing ev hrest forFlag).bind
    (f := loopRest ev symbol forFlag block fuel) fun steps => DefinedAs.refl _
  rw [bind_assoc] at hsteps
  refine DefinedAs.trans ?_ hsteps
  refine (DefinedAs.refl _).bind fun (fromInt64, toInt64, stepCnt, cond) => ?_
  exact (integerLoopFrom_definedAs symbol fromInt64 toInt64 forFlag stepCnt cond block fuel 0
    .nil).bind fun cell => .refl _

end Refinement

/-- Integer iteration covers its range exactly when the limits differ by less than
`2 ^ 63 - 1`, as long as its expression stands where the C variables point; from where it
has been moved on, it is lost. -/
theorem iterates_iff (a b n : Word) :
    (Iterates a b n ↔ (b.toInt - a.toInt).natAbs < 2 ^ 63 - 1) ∧ LostWhenMoved a b n := by
  refine ⟨⟨fun h => lt_of_sequenceRight h.sequence, fun h => ?_⟩, lostWhenMoved a b n⟩
  exact
    { for_ := forRight_of_lt h
      sequence := sequenceRight_of_lt h
      dotimes := dotimesRight n
      exact := by
        intro z hz
        rcases List.mem_append.mp hz with hz | hz
        · exact toInt_of_fits (span_fits hz)
        · exact toInt_of_fits (below_fits hz)
      ends := ⟨head?_span a.toInt b.toInt, getLast?_span a.toInt b.toInt⟩
      outer := outerValueKept }

/-- `(sequence -9223372036854775808 1)`, and the same limits in `for` -/
theorem not_iterates : ¬ Iterates 0x8000000000000000 1 0 ∧ ¬ ForRight 0x8000000000000000 1 := by
  have hwide : ¬ ((1 : Word).toInt - (0x8000000000000000 : Word).toInt).natAbs < 2 ^ 63 - 1 := by
    decide
  exact ⟨fun h => hwide (lt_of_sequenceRight h.sequence), fun h => hwide (lt_of_forRight h)⟩

end NewLispNeo.EnvStack
