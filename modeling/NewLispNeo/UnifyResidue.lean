/-
What `unify` leaves in its global sets when an error takes control out of it.
-/
import NewLispNeo.Unify
import NewLispNeo.Startup
import Mathlib.Logic.Relation

namespace NewLispNeo

namespace Unify

section Monad

variable {α β : Type} {m : Unifying α} {f : α → Unifying β} {s s' : Sets}
  {reply : Outcome UnifyError β}

/-- Control comes back, with a value or an error. -/
def Returned {α : Type} : Outcome UnifyError α → Prop
  | .value _ | .error _ => True
  | .undefined | .timeout => False

theorem bind_apply (m : Unifying α) (f : α → Unifying β) (s : Sets) :
    (m >>= f) s = Unifying.bind m f s := rfl

theorem bind_value {a : α} {s₁ : Sets} (h : m s = (.value a, s₁)) : (m >>= f) s = f a s₁ := by
  rw [bind_apply, Unifying.bind, h]

theorem bind_error {e : UnifyError} {s₁ : Sets} (h : m s = (.error e, s₁)) :
    (m >>= f) s = (.error e, s₁) := by
  rw [bind_apply, Unifying.bind, h]

/-- How `m >>= f` can return. -/
theorem bind_returned (h : (m >>= f) s = (reply, s')) (hr : Returned reply) :
    (∃ a s₁, m s = (.value a, s₁) ∧ f a s₁ = (reply, s')) ∨
      ∃ e, m s = (.error e, s') ∧ reply = .error e := by
  rw [bind_apply, Unifying.bind] at h
  rcases hm : m s with ⟨_ | _ | _ | _, s₁⟩
  · rw [hm] at h
    exact .inl ⟨_, _, rfl, h⟩
  · rw [hm] at h
    cases h
    exact .inr ⟨_, rfl, rfl⟩
  · rw [hm] at h
    cases h
    exact absurd hr id
  · rw [hm] at h
    cases h
    exact absurd hr id

end Monad

section Loop

variable {w : World} {s s' : Sets}

/-- One pass of the loop. -/
inductive Step (w : World) : Sets → Sets → Prop
  | pass {left right : Cell} {ws mgu : TermSet} {s' : Sets}
      (h : unifyPair w left right ⟨ws, mgu⟩ = .value (some s')) :
      Step w ⟨(left, right) :: ws, mgu⟩ s'

/-- The types of a pair cannot be told, or its cells cannot be compared. -/
inductive PairRaises (w : World) (left right : Cell) : Prop
  | left {e : UnifyError} (h : unifyGetType w left = .error e)
  | right {e : UnifyError} {t : UnifyType} (hleft : unifyGetType w left = .value t)
      (h : unifyGetType w right = .error e)
  | compare {e : UnifyError} {t u : UnifyType} (hleft : unifyGetType w left = .value t)
      (hright : unifyGetType w right = .value u) (hany : ¬ (t = .any ∨ u = .any))
      (hsame : (t = .atom ∧ u = .atom) ∨ sameContents w left right)
      (h : sameCells w left right = .error e)

mutual

theorem occurCheck_ne_error (sym : Cell) (e : UnifyError) :
    ∀ cell : Cell, occurCheck w sym cell ≠ .error e
  | .quote cell => by
      rw [occurCheck]
      split
      · simp
      · split
        · exact occurCheck_ne_error sym e cell
        · simp
  | .expression cells => by
      rw [occurCheck]
      exact occurCheckList_ne_error sym e cells
  | .lambda _ cells => by
      rw [occurCheck]
      exact occurCheckList_ne_error sym e cells
  | .fexpr cells => by
      rw [occurCheck]
      exact occurCheckList_ne_error sym e cells
  | .array _ | .nil | .true_ | .long _ | .bigint _ | .float _ | .string _ | .symbol _
  | .context _ | .primitive _ | .dynSymbol _ _ => by simp [occurCheck]

theorem occurCheckList_ne_error (sym : Cell) (e : UnifyError) :
    ∀ cells : List Cell, occurCheckList w sym cells ≠ .error e
  | [] => by simp [occurCheckList]
  | cell :: cells => by
      rw [occurCheckList]
      split
      · simp
      · split
        · intro h
          rcases Outcome.bind_eq_error_iff.1 h with h | ⟨b, -, h⟩
          · exact occurCheck_ne_error sym e cell h
          · split at h
            · simp at h
            · exact occurCheckList_ne_error sym e cells h
        · exact occurCheckList_ne_error sym e cells

end

theorem canBind_ne_error (t : UnifyType) (sym cell : Cell) (e : UnifyError) :
    canBind w t sym cell ≠ .error e := by
  unfold canBind
  split
  · intro h
    rcases Outcome.bind_eq_error_iff.1 h with h | ⟨b, -, h⟩
    · exact occurCheck_ne_error sym e cell h
    · simp at h
  · simp

theorem bindVariable_ne_error (sym cell : Cell) (s : Sets) (e : UnifyError) :
    bindVariable w sym cell s ≠ .error e := by
  unfold bindVariable
  split
  · simp
  · split <;> simp

/-- Binding and taking lists apart raise no error. -/
theorem unifyTerms_ne_error (t u : UnifyType) (left right : Cell) (s : Sets) (e : UnifyError) :
    unifyTerms w t u left right s ≠ .error e := by
  intro h
  rcases Outcome.bind_eq_error_iff.1 h with h | ⟨b, -, h⟩
  · exact canBind_ne_error t left right e h
  · split at h
    · rcases Outcome.bind_eq_error_iff.1 h with h | ⟨b, -, h⟩
      · exact bindVariable_ne_error left right s e h
      · simp at h
    · rcases Outcome.bind_eq_error_iff.1 h with h | ⟨b, -, h⟩
      · exact canBind_ne_error u right left e h
      · split at h
        · rcases Outcome.bind_eq_error_iff.1 h with h | ⟨b, -, h⟩
          · exact bindVariable_ne_error right left s e h
          · simp at h
        · split at h <;> simp at h

/-- A pair is faulty exactly when a pass of the loop raises an error on it. -/
theorem unifyPair_error_iff {left right : Cell} :
    (∃ e, unifyPair w left right s = .error e) ↔ PairRaises w left right := by
  constructor
  · rintro ⟨e, h⟩
    rcases Outcome.bind_eq_error_iff.1 h with h | ⟨t, hleft, h⟩
    · exact .left h
    rcases Outcome.bind_eq_error_iff.1 h with h | ⟨u, hright, h⟩
    · exact .right hleft h
    split at h
    · simp at h
    · rename_i hany
      split at h
      · rename_i hsame
        rcases Outcome.bind_eq_error_iff.1 h with h | ⟨b, -, h⟩
        · exact .compare hleft hright hany hsame h
        · split at h <;> simp at h
      · exact absurd h (unifyTerms_ne_error t u left right s e)
  · intro h
    cases h with
    | left h => exact ⟨_, by rw [unifyPair, h]; rfl⟩
    | right hleft h => exact ⟨_, by rw [unifyPair, hleft, Outcome.value_bind, h]; rfl⟩
    | compare hleft hright hany hsame h =>
        exact ⟨_, by rw [unifyPair, hleft, Outcome.value_bind, hright, Outcome.value_bind,
          if_neg hany, if_pos hsame, h, Outcome.error_bind]⟩

open Relation (ReflTransGen)

/-- A variable that `bind` may set. -/
def Settable (w : World) (pair : Cell × Cell) : Prop :=
  ∃ x, pair.1 = .symbol x ∧ isProtected w.flags x = false

/-- From these sets the loop comes to a faulty pair that is not the last work, or to a
protected variable with older ones behind it. -/
inductive LoopInterrupted (w : World) (bindFlag : Bool) (s : Sets) : Prop
  | pair {left right : Cell} {ws mgu : TermSet}
      (hsteps : ReflTransGen (Step w) s ⟨(left, right) :: ws, mgu⟩)
      (hraises : PairRaises w left right) (hleft : ws ≠ [] ∨ mgu ≠ [])
  | symbol {x : Symbol} {term : Cell} {newer older : TermSet} (hbind : bindFlag = true)
      (hsteps : ReflTransGen (Step w) s ⟨[], newer ++ (.symbol x, term) :: older⟩)
      (hnewer : ∀ pair ∈ newer, Settable w pair)
      (hprotected : isProtected w.flags x = true) (hleft : older ≠ [])

theorem Sets.ne_empty_iff : s ≠ Sets.empty ↔ s.ws ≠ [] ∨ s.mgu ≠ [] := by
  obtain ⟨ws, mgu⟩ := s
  rw [← not_and_or]
  exact not_congr ⟨fun h => ⟨congrArg Sets.ws h, congrArg Sets.mgu h⟩,
    fun h => congrArg₂ Sets.mk h.1 h.2⟩

/-- A step from a pair, told by what a pass makes of it. -/
theorem steps_cons {left right : Cell} {ws mgu : TermSet} {t : Sets}
    (h : ReflTransGen (Step w) ⟨(left, right) :: ws, mgu⟩ t) :
    t = ⟨(left, right) :: ws, mgu⟩ ∨
      ∃ s₁, unifyPair w left right ⟨ws, mgu⟩ = .value (some s₁) ∧ ReflTransGen (Step w) s₁ t := by
  rcases ReflTransGen.cases_head h with heq | ⟨s₁, hstep, hrest⟩
  · exact .inl heq.symm
  · cases hstep with
    | pass hpass => exact .inr ⟨s₁, hpass, hrest⟩

theorem steps_nil {mgu : TermSet} {t : Sets} (h : ReflTransGen (Step w) ⟨[], mgu⟩ t) :
    t = ⟨[], mgu⟩ := by
  rcases ReflTransGen.cases_head h with heq | ⟨s₁, hstep, -⟩
  · exact heq.symm
  · cases hstep

theorem loopInterrupted_pass {bindFlag : Bool} {left right : Cell} {ws mgu : TermSet}
    {s₁ : Sets} (h : unifyPair w left right ⟨ws, mgu⟩ = .value (some s₁)) :
    LoopInterrupted w bindFlag ⟨(left, right) :: ws, mgu⟩ ↔ LoopInterrupted w bindFlag s₁ := by
  constructor
  · intro hinterrupted
    cases hinterrupted with
    | pair hsteps hraises hleft =>
        rcases steps_cons hsteps with heq | ⟨s₂, hpass, hrest⟩
        · cases heq
          obtain ⟨e, he⟩ := unifyPair_error_iff.2 hraises
          rw [h] at he
          contradiction
        · cases h.symm.trans hpass
          exact .pair hrest hraises hleft
    | symbol hbind hsteps hnewer hprotected hleft =>
        rcases steps_cons hsteps with heq | ⟨s₂, hpass, hrest⟩
        · cases heq
        · cases h.symm.trans hpass
          exact .symbol hbind hrest hnewer hprotected hleft
  · intro hinterrupted
    cases hinterrupted with
    | pair hsteps hraises hleft => exact .pair (hsteps.head (.pass h)) hraises hleft
    | symbol hbind hsteps hnewer hprotected hleft =>
        exact .symbol hbind (hsteps.head (.pass h)) hnewer hprotected hleft

theorem loopInterrupted_stuck {bindFlag : Bool} {left right : Cell} {ws mgu : TermSet}
    (h : ∀ s₁, unifyPair w left right ⟨ws, mgu⟩ ≠ .value (some s₁)) :
    LoopInterrupted w bindFlag ⟨(left, right) :: ws, mgu⟩ ↔
      PairRaises w left right ∧ (ws ≠ [] ∨ mgu ≠ []) := by
  constructor
  · intro hinterrupted
    cases hinterrupted with
    | pair hsteps hraises hleft =>
        rcases steps_cons hsteps with heq | ⟨s₁, hpass, -⟩
        · cases heq
          exact ⟨hraises, hleft⟩
        · exact absurd hpass (h s₁)
    | symbol _ hsteps _ _ _ =>
        rcases steps_cons hsteps with heq | ⟨s₁, hpass, -⟩
        · cases heq
        · exact absurd hpass (h s₁)
  · rintro ⟨hraises, hleft⟩
    exact .pair .refl hraises hleft

/-- `bind` stops exactly at the first protected variable. -/
theorem bindSymbols_error {mgu rest : TermSet} {e : UnifyError}
    (h : bindSymbols w mgu = (.error e, rest)) :
    ∃ newer x term, mgu = newer ++ (.symbol x, term) :: rest ∧
      (∀ pair ∈ newer, Settable w pair) ∧ isProtected w.flags x = true := by
  induction mgu with
  | nil => simp [bindSymbols] at h
  | cons head mgu ih =>
      obtain ⟨sym, term⟩ := head
      cases sym with
      | symbol x =>
          rw [bindSymbols] at h
          split at h
          · rename_i hx
            cases h
            exact ⟨[], x, term, rfl, by simp, hx⟩
          · rename_i hx
            obtain ⟨newer, y, u, rfl, hnewer, hy⟩ := ih h
            refine ⟨(.symbol x, term) :: newer, y, u, rfl, ?_, hy⟩
            rintro pair (_ | ⟨_, hpair⟩)
            · exact ⟨x, rfl, Bool.eq_false_iff.2 hx⟩
            · exact hnewer pair hpair
      | _ => simp [bindSymbols] at h

theorem bindSymbols_protected {newer older : TermSet} {x : Symbol} {term : Cell}
    (hnewer : ∀ pair ∈ newer, Settable w pair) (hx : isProtected w.flags x = true) :
    bindSymbols w (newer ++ (.symbol x, term) :: older) =
      (.error (.raised .symbolProtected), older) := by
  induction newer with
  | nil => rw [List.nil_append, bindSymbols, if_pos hx]
  | cons head newer ih =>
      obtain ⟨y, hy, hfree⟩ := hnewer head List.mem_cons_self
      obtain ⟨sym, u⟩ := head
      obtain rfl : sym = .symbol y := hy
      rw [List.cons_append, bindSymbols, hfree]
      exact ih fun pair hpair => hnewer pair (List.mem_cons_of_mem _ hpair)

theorem finishUnify_empty_iff {bindFlag : Bool} {mgu : TermSet}
    {reply : Outcome UnifyError Cell}
    (h : finishUnify w bindFlag ⟨[], mgu⟩ = (reply, s')) (hr : Returned reply) :
    s' ≠ .empty ↔ LoopInterrupted w bindFlag ⟨[], mgu⟩ := by
  cases bindFlag with
  | false =>
      cases h
      refine iff_of_false (not_not.2 rfl) ?_
      intro hinterrupted
      cases hinterrupted with
      | pair hsteps _ _ => cases steps_nil hsteps
      | symbol hbind _ _ _ _ => contradiction
  | true =>
      rw [finishUnify, if_pos rfl] at h
      rcases hsymbols : bindSymbols w mgu with ⟨_ | e | _ | _, rest⟩
      · rw [hsymbols] at h
        cases h
        refine iff_of_false (not_not.2 rfl) ?_
        intro hinterrupted
        cases hinterrupted with
        | pair hsteps _ _ => cases steps_nil hsteps
        | symbol hbind hsteps hnewer hprotected hleft =>
            cases steps_nil hsteps
            rw [bindSymbols_protected hnewer hprotected] at hsymbols
            cases hsymbols
      · rw [hsymbols] at h
        cases h
        obtain ⟨newer, x, term, rfl, hnewer, hx⟩ := bindSymbols_error hsymbols
        rw [Sets.ne_empty_iff]
        constructor
        · rintro (hws | hrest)
          · exact absurd rfl hws
          · exact .symbol rfl .refl hnewer hx hrest
        · intro hinterrupted
          cases hinterrupted with
          | pair hsteps _ _ => cases steps_nil hsteps
          | symbol _ hsteps hnewer' hprotected hleft =>
              have hsame := congrArg Sets.mgu (steps_nil hsteps)
              dsimp only at hsame
              rw [← hsame, bindSymbols_protected hnewer' hprotected] at hsymbols
              cases hsymbols
              exact .inr hleft
      · rw [hsymbols] at h
        cases h
        exact absurd hr id
      · rw [hsymbols] at h
        cases h
        exact absurd hr id

/-- The loop leaves something in the sets exactly when it is interrupted. -/
theorem unifyLoop_empty_iff {bindFlag : Bool} {fuel : Nat} {reply : Outcome UnifyError Cell}
    (h : unifyLoop w bindFlag fuel s = (reply, s')) (hr : Returned reply) :
    s' ≠ .empty ↔ LoopInterrupted w bindFlag s := by
  induction fuel generalizing s with
  | zero =>
      cases h
      exact absurd hr id
  | succ fuel ih =>
      obtain ⟨ws, mgu⟩ := s
      cases ws with
      | nil => exact finishUnify_empty_iff h hr
      | cons pair ws =>
          obtain ⟨left, right⟩ := pair
          rw [unifyLoop] at h
          rcases hpass : unifyPair w left right ⟨ws, mgu⟩ with (_ | s₁) | e | _ | _
          · simp only [hpass] at h
            cases h
            refine iff_of_false (not_not.2 rfl) ?_
            rw [loopInterrupted_stuck (by simp [hpass])]
            rintro ⟨hraises, -⟩
            obtain ⟨e, he⟩ := unifyPair_error_iff.2 hraises
            rw [hpass] at he
            contradiction
          · simp only [hpass] at h
            rw [ih h, loopInterrupted_pass hpass]
          · simp only [hpass] at h
            cases h
            rw [Sets.ne_empty_iff, loopInterrupted_stuck (by simp [hpass])]
            exact ⟨fun hleft => ⟨unifyPair_error_iff.1 ⟨_, hpass⟩, hleft⟩, And.right⟩
          · simp only [hpass] at h
            cases h
            exact absurd hr id
          · simp only [hpass] at h
            cases h
            exact absurd hr id

end Loop

section Call

variable {w : World} {left right env flag : Unifying Cell} {s s' : Sets}
  {reply : Outcome UnifyError Cell}

/-- The terms and the environment, evaluated in this order. -/
def arguments (left right env : Unifying Cell) : Unifying (Cell × Cell × Cell) := do
  let leftCell ← left
  let rightCell ← right
  let envCell ← env
  return (leftCell, rightCell, envCell)

/-- `p_unify` behind the evaluation of the terms and the environment. -/
def unifyArguments (w : World) (fuel : Nat) (flag : Unifying Cell) :
    Cell × Cell × Cell → Unifying Cell
  | (leftCell, rightCell, envCell) => do
      let entries ← Unifying.lift (listHead w envCell)
      pushEnvironmentList entries
      let bindFlag ← flag
      unify w (!isNil bindFlag) fuel leftCell rightCell

theorem p_unify_eq (fuel : Nat) : p_unify w fuel left right env flag =
    (arguments left right env >>= unifyArguments w fuel flag) := by
  funext s
  simp only [p_unify, arguments, bind_apply, Unifying.bind]
  rcases left s with ⟨_ | _ | _ | _, s₁⟩
  · simp only []
    rcases right s₁ with ⟨_ | _ | _ | _, s₂⟩
    · simp only []
      rcases env s₂ with ⟨_ | _ | _ | _, s₃⟩ <;> rfl
    · rfl
    · rfl
    · rfl
  · rfl
  · rfl
  · rfl

def Sets.pushEntry (s : Sets) (entry : List Cell) : Sets :=
  s.pushWs (entry.getD 0 .nil) (entry.getD 1 .nil)

/-- The sets with the pairs of an environment. -/
def Sets.pushEntries (s : Sets) (entries : List (List Cell)) : Sets :=
  entries.foldl Sets.pushEntry s

theorem pushEnvironmentList_lists (entries : List (List Cell)) (s : Sets) :
    pushEnvironmentList (entries.map .expression) s = (.value (), s.pushEntries entries) := by
  induction entries generalizing s with
  | nil => rfl
  | cons entry entries ih => exact ih (s.pushEntry entry)

theorem pushEnvironmentList_other (entries : List (List Cell)) {other : Cell}
    (rest : List Cell) (h : ∀ cells, other ≠ .expression cells) (s : Sets) :
    pushEnvironmentList (entries.map .expression ++ other :: rest) s =
      (.error (.raised .listExpected), s.pushEntries entries) := by
  induction entries generalizing s with
  | nil =>
      cases other with
      | expression cells => exact absurd rfl (h cells)
      | _ => rfl
  | cons entry entries ih => exact ih (s.pushEntry entry)

theorem entries_cases (cells : List Cell) :
    (∃ entries : List (List Cell), cells = entries.map .expression) ∨
      ∃ (entries : List (List Cell)) (other : Cell) (rest : List Cell),
        cells = entries.map .expression ++ other :: rest ∧ ∀ es, other ≠ .expression es := by
  induction cells with
  | nil => exact .inl ⟨[], rfl⟩
  | cons cell cells ih =>
      by_cases hcell : ∃ es, cell = .expression es
      · obtain ⟨es, rfl⟩ := hcell
        rcases ih with ⟨entries, rfl⟩ | ⟨entries, other, rest, rfl, hother⟩
        · exact .inl ⟨es :: entries, rfl⟩
        · exact .inr ⟨es :: entries, other, rest, rfl, hother⟩
      · exact .inr ⟨[], cell, cells, rfl, fun es hes => hcell ⟨es, hes⟩⟩

/-- Where an error takes control out of a call behind its first arguments, while a set holds
something: at an environment that is no list or has an entry that is none, in the flag, and
in the loop. -/
inductive BodyInterrupted (w : World) (flag : Unifying Cell) (l r c : Cell) (s : Sets) : Prop
  | notList {e : UnifyError} (h : listHead w c = .error e) (hsets : s ≠ .empty)
  | entry {entries : List (List Cell)} {other : Cell} {rest : List Cell}
      (h : listHead w c = .value (entries.map .expression ++ other :: rest))
      (hother : ∀ cells, other ≠ .expression cells) (hsets : s.pushEntries entries ≠ .empty)
  | flag {entries : List (List Cell)} {e : UnifyError} {s₁ : Sets}
      (h : listHead w c = .value (entries.map .expression))
      (hflag : flag (s.pushEntries entries) = (.error e, s₁)) (hsets : s₁ ≠ .empty)
  | loop {entries : List (List Cell)} {f : Cell} {s₁ : Sets}
      (h : listHead w c = .value (entries.map .expression))
      (hflag : flag (s.pushEntries entries) = (.value f, s₁))
      (hloop : LoopInterrupted w (!isNil f) (s₁.pushWs l r))

/-- Where an error takes control out of a call while a set holds something. -/
inductive Interrupted (w : World) (left right env flag : Unifying Cell) (s : Sets) : Prop
  | argument {e : UnifyError} {s₁ : Sets} (h : arguments left right env s = (.error e, s₁))
      (hsets : s₁ ≠ .empty)
  | body {l r c : Cell} {s₁ : Sets} (h : arguments left right env s = (.value (l, r, c), s₁))
      (hbody : BodyInterrupted w flag l r c s₁)

/-- The part of a call from the environment list on. -/
def unifyEntries (w : World) (fuel : Nat) (flag : Unifying Cell) (l r : Cell)
    (cells : List Cell) : Unifying Cell := do
  pushEnvironmentList cells
  let bindFlag ← flag
  unify w (!isNil bindFlag) fuel l r

theorem map_expression_inj {es fs : List (List Cell)}
    (h : es.map Cell.expression = fs.map Cell.expression) : es = fs :=
  (List.map_inj_right fun _ _ => Cell.expression.inj).1 h

theorem entries_ne {es fs : List (List Cell)} {other : Cell} {rest : List Cell}
    (hother : ∀ cells, other ≠ .expression cells) :
    es.map Cell.expression ≠ fs.map .expression ++ other :: rest := by
  intro h
  have hmem : other ∈ es.map Cell.expression := by
    rw [h]
    exact List.mem_append_right _ List.mem_cons_self
  obtain ⟨cells, -, hcells⟩ := List.mem_map.1 hmem
  exact hother cells hcells.symm

theorem entries_inj {es fs : List (List Cell)} {other other' : Cell} {rest rest' : List Cell}
    (hother : ∀ cells, other ≠ .expression cells)
    (hother' : ∀ cells, other' ≠ .expression cells)
    (h : es.map Cell.expression ++ other :: rest = fs.map .expression ++ other' :: rest') :
    es = fs := by
  induction es generalizing fs with
  | nil =>
      cases fs with
      | nil => rfl
      | cons f fs => exact absurd (List.cons.inj h).1 (hother f)
  | cons e es ih =>
      cases fs with
      | nil => exact absurd (List.cons.inj h).1.symm (hother' e)
      | cons f fs =>
          obtain ⟨hhead, htail⟩ := List.cons.inj h
          rw [Cell.expression.inj hhead, ih htail]

theorem unifyEntries_empty_iff {fuel : Nat} {l r c : Cell} {cells : List Cell}
    (hcells : listHead w c = .value cells)
    (h : unifyEntries w fuel flag l r cells s = (reply, s')) (hr : Returned reply) :
    s' ≠ .empty ↔ BodyInterrupted w flag l r c s := by
  have hsame : ∀ {cells'}, listHead w c = .value cells' → cells = cells' :=
    fun h' => Outcome.value.inj (hcells.symm.trans h')
  rcases entries_cases cells with ⟨entries, rfl⟩ | ⟨entries, other, rest, rfl, hother⟩
  · rw [unifyEntries, bind_value (pushEnvironmentList_lists entries s)] at h
    rcases bind_returned h hr with ⟨f, s₁, hflag, h⟩ | ⟨e, hflag, -⟩
    · rw [unifyLoop_empty_iff h hr]
      constructor
      · exact .loop hcells hflag
      · intro hinterrupted
        cases hinterrupted with
        | notList h' _ => cases hcells.symm.trans h'
        | entry h' hother _ => exact absurd (hsame h') (entries_ne hother)
        | flag h' hflag' _ =>
            cases map_expression_inj (hsame h')
            cases hflag.symm.trans hflag'
        | loop h' hflag' hloop =>
            cases map_expression_inj (hsame h')
            cases hflag.symm.trans hflag'
            exact hloop
    · constructor
      · exact .flag hcells hflag
      · intro hinterrupted
        cases hinterrupted with
        | notList h' _ => cases hcells.symm.trans h'
        | entry h' hother _ => exact absurd (hsame h') (entries_ne hother)
        | flag h' hflag' hsets =>
            cases map_expression_inj (hsame h')
            cases hflag.symm.trans hflag'
            exact hsets
        | loop h' hflag' _ =>
            cases map_expression_inj (hsame h')
            cases hflag.symm.trans hflag'
  · rw [unifyEntries, bind_error (pushEnvironmentList_other entries rest hother s)] at h
    cases h
    constructor
    · exact .entry hcells hother
    · intro hinterrupted
      cases hinterrupted with
      | notList h' _ => cases hcells.symm.trans h'
      | entry h' hother' hsets => rwa [entries_inj hother hother' (hsame h')]
      | flag h' _ _ => exact absurd (hsame h').symm (entries_ne hother)
      | loop h' _ _ => exact absurd (hsame h').symm (entries_ne hother)

theorem unifyArguments_empty_iff {fuel : Nat} {l r c : Cell}
    (h : unifyArguments w fuel flag (l, r, c) s = (reply, s')) (hr : Returned reply) :
    s' ≠ .empty ↔ BodyInterrupted w flag l r c s := by
  rcases hlist : listHead w c with cells | e | _ | _
  · have hlift : Unifying.lift (listHead w c) s = (.value cells, s) := by
      rw [Unifying.lift, hlist]
    rw [unifyArguments, bind_value hlift] at h
    exact unifyEntries_empty_iff hlist h hr
  · have hlift : Unifying.lift (listHead w c) s = (.error e, s) := by
      rw [Unifying.lift, hlist]
    rw [unifyArguments, bind_error hlift] at h
    cases h
    constructor
    · exact .notList hlist
    · intro hinterrupted
      cases hinterrupted with
      | notList _ hsets => exact hsets
      | entry h' _ _ => cases hlist.symm.trans h'
      | flag h' _ _ => cases hlist.symm.trans h'
      | loop h' _ _ => cases hlist.symm.trans h'
  · unfold listHead at hlist
    split at hlist <;> contradiction
  · unfold listHead at hlist
    split at hlist <;> contradiction

/-- A call that returns leaves something in the sets exactly when it is interrupted. -/
theorem p_unify_empty_iff {fuel : Nat} (h : p_unify w fuel left right env flag s = (reply, s'))
    (hr : Returned reply) : s' ≠ .empty ↔ Interrupted w left right env flag s := by
  rw [p_unify_eq] at h
  rcases bind_returned h hr with ⟨⟨l, r, c⟩, s₁, harguments, h⟩ | ⟨e, harguments, -⟩
  · rw [unifyArguments_empty_iff h hr]
    constructor
    · exact .body harguments
    · intro hinterrupted
      cases hinterrupted with
      | argument h' _ => cases harguments.symm.trans h'
      | body h' hbody =>
          cases harguments.symm.trans h'
          exact hbody
  · constructor
    · exact .argument harguments
    · intro hinterrupted
      cases hinterrupted with
      | argument h' hsets =>
          cases harguments.symm.trans h'
          exact hsets
      | body h' _ => cases harguments.symm.trans h'

end Call

/-- An evaluation as the globals see it: it makes calls of `unify` one after the other, each
with the evaluation of its arguments, and goes on with what a call replies; without a
`catch` around it, an error goes on as itself. -/
inductive Evaluation where
  | value (cell : Cell)
  | error (e : UnifyError)
  | unify (w : World) (left right env flag : Evaluation)
      (next : Outcome UnifyError Cell → Evaluation)

namespace Evaluation

def run (fuel : Nat) : Evaluation → Unifying Cell
  | value cell => Unifying.lift (.value cell)
  | error e => Unifying.lift (.error e)
  | unify w left right env flag next => fun s =>
      match p_unify w fuel (left.run fuel) (right.run fuel) (env.run fuel) (flag.run fuel) s with
      | (.value cell, s') => (next (.value cell)).run fuel s'
      | (.error e, s') => (next (.error e)).run fuel s'
      | (.undefined, s') => (.undefined, s')
      | (.timeout, s') => (.timeout, s')

/-- None of the calls made from empty sets one after the other is interrupted. -/
def Uninterrupted (fuel : Nat) : Evaluation → Prop
  | value _ => True
  | error _ => True
  | unify w left right env flag next =>
      ¬ Interrupted w (left.run fuel) (right.run fuel) (env.run fuel) (flag.run fuel) .empty ∧
        (next (p_unify w fuel (left.run fuel) (right.run fuel) (env.run fuel) (flag.run fuel)
          .empty).1).Uninterrupted fuel

theorem run_empty {fuel : Nat} {evaluation : Evaluation} {reply : Outcome UnifyError Cell}
    {s : Sets} (hclean : evaluation.Uninterrupted fuel)
    (h : evaluation.run fuel .empty = (reply, s)) (hr : Returned reply) : s = .empty := by
  induction evaluation generalizing reply s with
  | value cell => exact (congrArg Prod.snd h).symm
  | error e => exact (congrArg Prod.snd h).symm
  | unify w left right env flag next _ _ _ _ ih =>
      obtain ⟨hcall, hnext⟩ := hclean
      rw [run] at h
      rcases hreply : p_unify w fuel (left.run fuel) (right.run fuel) (env.run fuel)
        (flag.run fuel) .empty with ⟨cell | e | _ | _, s₁⟩
      · have hs : s₁ = .empty := by
          by_contra hne
          exact hcall ((p_unify_empty_iff hreply trivial).1 hne)
        rw [hreply] at hnext
        simp only [hreply, hs] at h
        exact ih (.value cell) hnext h hr
      · have hs : s₁ = .empty := by
          by_contra hne
          exact hcall ((p_unify_empty_iff hreply trivial).1 hne)
        rw [hreply] at hnext
        simp only [hreply, hs] at h
        exact ih (.error e) hnext h hr
      · simp only [hreply] at h
        cases h
        exact absurd hr id
      · simp only [hreply] at h
        cases h
        exact absurd hr id

end Evaluation

/-- A call of `unify` that returns leaves nothing in the sets exactly when it is not
interrupted, and calls made one after the other, none of them interrupted, all start from
empty sets. -/
theorem unify_releases_sets (fuel : Nat) :
    (∀ (w : World) (left right env flag : Unifying Cell) (s s' : Sets)
      (reply : Outcome UnifyError Cell), p_unify w fuel left right env flag s = (reply, s') →
      Returned reply → (s' = .empty ↔ ¬ Interrupted w left right env flag s)) ∧
    ∀ (evaluation : Evaluation) (s : Sets) (reply : Outcome UnifyError Cell),
      evaluation.Uninterrupted fuel → evaluation.run fuel .empty = (reply, s) →
      Returned reply → s = .empty := by
  constructor
  · intro w left right env flag s s' reply h hr
    rw [← p_unify_empty_iff h hr, not_not]
  · intro evaluation s reply hclean h hr
    exact Evaluation.run_empty hclean h hr

/-- The interpreter after the start, with symbols at addresses by the letters of their
names. -/
def startupWorld : World where
  rt := { exactRuntime with
    symbolAddress := fun s => BitVec.ofNat 64 (4096 + 64 * (s.name.toList.map Char.toNat).sum) }
  values _ := .nil
  flags _ := 0

def named (name : String) : Cell := .symbol (mainSymbol name)

/-- `(X 1)` -/
def variableAndOne : Cell := .expression [named "X", .long 1]

/-- `(f Y)` -/
def appliedY : Cell := .expression [named "f", named "Y"]

/-- `((Z 2))` -/
def bindingOfZ : Cell := .expression [.expression [named "Z", .long 2]]

/-- `(unify '(X 1) '((f Y) 1) '((Z 2)))`, and then a call that fails, `(unify '(f Y) 1)`. -/
def twoCalls : Evaluation :=
  .unify startupWorld (.value variableAndOne) (.value (.expression [appliedY, .long 1]))
    (.value bindingOfZ) (.value .nil) fun _ =>
      .unify startupWorld (.value appliedY) (.value (.long 1)) (.value (.expression []))
        (.value .nil) fun _ => .value .true_

/-- Both calls leave the sets empty. -/
theorem unify_releases_sets_two : ¬ Interrupted startupWorld (pure variableAndOne)
      (pure (.expression [appliedY, .long 1])) (pure bindingOfZ) (pure .nil) .empty ∧
    ∃ reply, twoCalls.run 9 .empty = (reply, .empty) := by
  have hfirst := ((unify_releases_sets 9).1 startupWorld (pure variableAndOne)
    (pure (.expression [appliedY, .long 1])) (pure bindingOfZ) (pure .nil) .empty .empty
    (.value (.expression [.expression [named "Z", .long 2], .expression [named "X", appliedY]]))
    rfl trivial).1 rfl
  have hsecond := ((unify_releases_sets 9).1 startupWorld (pure appliedY) (pure (.long 1))
    (pure (.expression [])) (pure .nil) .empty .empty (.value .nil) rfl trivial).1 rfl
  have hreply : (twoCalls.run 9 .empty).1 = .value .true_ := by
    simp only [twoCalls, Evaluation.run]
    rfl
  have hreturned : Returned (twoCalls.run 9 .empty).1 := by
    rw [hreply]
    trivial
  have hsets := (unify_releases_sets 9).2 twoCalls _ _ ⟨hfirst, hsecond, trivial⟩ rfl hreturned
  exact ⟨hfirst, _, Prod.ext rfl hsets⟩

/-- `(unify 'X 1 '((Y 2) 3))` ends in an error with `Y` and `2` in the working set, and then
`(unify 'X 1)` binds `Y`. -/
theorem unify_leaves_environment :
    (p_unify startupWorld 3 (pure (named "X")) (pure (.long 1))
      (pure (.expression [.expression [named "Y", .long 2], .long 3])) (pure .nil) .empty) =
      (.error (.raised .listExpected), ⟨[(named "Y", .long 2)], []⟩) ∧
    (p_unify startupWorld 3 (pure (named "X")) (pure (.long 1)) (pure (.expression []))
      (pure .nil) ⟨[(named "Y", .long 2)], []⟩) =
      (.value (.expression [.expression [named "Y", .long 2],
        .expression [named "X", .long 1]]), .empty) := by
  constructor <;> rfl

end Unify

end NewLispNeo
