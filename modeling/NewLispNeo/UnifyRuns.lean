/-
Calls of `unify` on terms: they return the bindings of a most general solution, or `nil`
when there is none, and the order of the two terms changes the bindings by a renaming.
-/
import NewLispNeo.UnifyResidue
import NewLispNeo.UnifyTerms

namespace NewLispNeo

namespace Unify

open Unification
open Relation (ReflTransGen)

section Loop

variable {w : World} {s : Sets}

/-- A pass of the loop behind which it goes on. -/
def Pass (w : World) (s s' : Sets) : Prop :=
  ∃ left right ws, s.ws = (left, right) :: ws ∧
    unifyPair w left right { s with ws := ws } = .value (some s')

/-- The pairs that a run of the loop takes up are compared and bound as they are. -/
def RunsDirect (w : World) (s : Sets) : Prop :=
  ∀ s' left right ws, ReflTransGen (Pass w) s s' → s'.ws = (left, right) :: ws →
    Direct w left right { s' with ws := ws }

theorem RunsDirect.next {s' : Sets} (h : RunsDirect w s) (hpass : Pass w s s') :
    RunsDirect w s' :=
  fun t left right ws hrun hws => h t left right ws (hrun.head hpass) hws

theorem runsDirect_nil (mgu : TermSet) : RunsDirect w ⟨[], mgu⟩ := by
  intro s' left right ws hrun hws
  rcases ReflTransGen.cases_head hrun with rfl | ⟨t, ⟨l, r, rest, hrest, -⟩, -⟩
  · cases hws
  · cases hrest

/-- The first pair of a run, and the run behind it. -/
theorem runsDirect_cons {left right : Cell} {ws mgu : TermSet}
    (hd : Direct w left right ⟨ws, mgu⟩)
    (hnext : ∀ s', unifyPair w left right ⟨ws, mgu⟩ = .value (some s') → RunsDirect w s') :
    RunsDirect w ⟨(left, right) :: ws, mgu⟩ := by
  intro s' l r rest hrun hrest
  rcases ReflTransGen.cases_head hrun with rfl | ⟨t, ⟨l', r', ws', hws, hpass⟩, hrun⟩
  · cases hrest
    exact hd
  · cases hws
    exact hnext t hpass s' l r rest hrun hrest

/-- How the loop ends: with all pairs done, or at a clash. -/
inductive Ends (w : World) (s : Sets) : (Bool → Outcome UnifyError Cell × Sets) → Prop
  | done {s' : Sets} (hrun : ReflTransGen State.Step (stateOf w s) (stateOf w s'))
      (hws : s'.ws = []) (hin : SetsIn s') : Ends w s fun bindFlag => finishUnify w bindFlag s'
  | clash {l r : Term CellLabel Symbol} {ws : Pairs CellLabel Symbol}
      {mgu : BindingList CellLabel Symbol}
      (hrun : ReflTransGen State.Step (stateOf w s) ⟨(l, r) :: ws, mgu⟩)
      (hclash : State.Clash l r) : Ends w s fun _ => (.value .nil, Sets.empty)

/-- The loop comes to an end. -/
theorem unifyLoop_ends (hd : RunsDirect w s) (hs : SetsIn s)
    (hsolved : State.Solved (stateOf w s))
    (hacc : Acc (fun t' t => State.Step t t') (stateOf w s)) :
    ∃ n reply, Ends w s reply ∧
      ∀ fuel ≥ n, ∀ bindFlag, unifyLoop w bindFlag fuel s = reply bindFlag := by
  generalize hstate : stateOf w s = t at hacc
  induction hacc generalizing s with
  | intro t _ ih =>
      obtain ⟨ws, mgu⟩ := s
      cases ws with
      | nil =>
          refine ⟨1, _, .done .refl rfl hs, fun fuel hfuel bindFlag => ?_⟩
          obtain ⟨k, rfl⟩ := Nat.exists_eq_add_of_le' hfuel
          rfl
      | cons pair ws =>
          obtain ⟨left, right⟩ := pair
          obtain ⟨hl, hr⟩ := hs.ws _ List.mem_cons_self
          have hrest : SetsIn ⟨ws, mgu⟩ :=
            ⟨fun p hp => hs.ws p (List.mem_cons_of_mem _ hp), hs.mgu⟩
          have hfirst := hd _ left right ws .refl rfl
          rcases unifyPair_spec hfirst hl hr hrest hsolved with ⟨s', hpass, hs', hstep⟩ |
            ⟨hpass, hclash⟩
          · obtain ⟨n, reply, hends, hloop⟩ := ih _ (hstate ▸ hstep)
              (hd.next ⟨left, right, ws, rfl, hpass⟩) hs' (State.step_solved hstep hsolved) rfl
            refine ⟨n + 1, reply, ?_, fun fuel hfuel bindFlag => ?_⟩
            · cases hends with
              | done hrun hws hin => exact .done (hrun.head hstep) hws hin
              | clash hrun hclash => exact .clash (hrun.head hstep) hclash
            · obtain ⟨k, rfl⟩ := Nat.exists_eq_add_of_le' hfuel
              rw [show k + (n + 1) = k + n + 1 by omega, unifyLoop]
              simp only [hpass]
              exact hloop (k + n) (Nat.le_add_left n k) bindFlag
          · refine ⟨1, _, .clash .refl hclash, fun fuel hfuel bindFlag => ?_⟩
            obtain ⟨k, rfl⟩ := Nat.exists_eq_add_of_le' hfuel
            rw [unifyLoop]
            simp only [hpass]

end Loop

section Calls

variable {w : World} {left right : Cell} {env : List (Cell × Cell)}

/-- An environment as `unify` takes it. -/
def environmentOf (env : List (Cell × Cell)) : Cell :=
  .expression (env.map fun pair => .expression [pair.1, pair.2])

/-- `(unify left right env)`, the arguments evaluated. -/
def callUnify (w : World) (fuel : Nat) (left right : Cell) (env : List (Cell × Cell)) :
    Outcome UnifyError Cell × Sets :=
  p_unify w fuel (pure left) (pure right) (pure (environmentOf env)) (pure .nil) .empty

/-- The pairs of a call. -/
def pairsOf (left right : Cell) (env : List (Cell × Cell)) : Sets :=
  ⟨(left, right) :: env.reverse, []⟩

theorem pushEntries_pairs (env : List (Cell × Cell)) (s : Sets) :
    s.pushEntries (env.map fun pair => [pair.1, pair.2]) =
      { s with ws := env.reverse ++ s.ws } := by
  induction env generalizing s with
  | nil => rfl
  | cons pair env ih =>
      obtain ⟨l, r⟩ := pair
      rw [List.map_cons]
      change (s.pushWs l r).pushEntries _ = _
      rw [ih]
      simp [Sets.pushWs]

theorem callUnify_eq (fuel : Nat) : callUnify w fuel left right env =
    unifyLoop w false fuel (pairsOf left right env) := by
  have hentries : (env.map fun pair : Cell × Cell => Cell.expression [pair.1, pair.2]) =
      (env.map fun pair => [pair.1, pair.2]).map .expression := by
    rw [List.map_map]
    rfl
  have hpush := pushEnvironmentList_lists (env.map fun pair => [pair.1, pair.2]) .empty
  rw [← hentries, pushEntries_pairs] at hpush
  have hbody : callUnify w fuel left right env =
      (pushEnvironmentList (env.map fun pair => .expression [pair.1, pair.2]) >>= fun _ =>
        unify w false fuel left right) .empty := rfl
  rw [hbody, bind_value hpush]
  simp [unify, pairsOf, Sets.empty, Sets.pushWs]

theorem setsIn_pairsOf (hl : isTerm left = true) (hr : isTerm right = true)
    (henv : ∀ pair ∈ env, isTerm pair.1 = true ∧ isTerm pair.2 = true) :
    SetsIn (pairsOf left right env) := by
  constructor
  · rintro pair (_ | ⟨_, hpair⟩)
    · exact ⟨hl, hr⟩
    · exact henv pair (List.mem_reverse.1 hpair)
  · intro pair hpair
    contradiction

/-- The problem of a call. -/
def problemOf (w : World) (left right : Cell) (env : List (Cell × Cell)) :
    State CellLabel Symbol := stateOf w (pairsOf left right env)

/-- The bindings of a reply. -/
def bindingsOf (w : World) (bs : List (Symbol × Cell)) : BindingList CellLabel Symbol :=
  bs.map fun b => (b.1, termOf w b.2)

/-- The reply with some bindings. -/
def replyOf (bs : List (Symbol × Cell)) : Cell :=
  .expression (bs.map fun b => .expression [.symbol b.1, b.2])

/-- What a call may end with. -/
inductive CallEnds (w : World) (left right : Cell) (env : List (Cell × Cell)) : Cell → Prop
  | bindings {bs : List (Symbol × Cell)}
      (hrun : ReflTransGen State.Step (problemOf w left right env) ⟨[], bindingsOf w bs⟩) :
      CallEnds w left right env (replyOf bs)
  | clash {l r : Term CellLabel Symbol} {ws : Pairs CellLabel Symbol}
      {mgu : BindingList CellLabel Symbol}
      (hrun : ReflTransGen State.Step (problemOf w left right env) ⟨(l, r) :: ws, mgu⟩)
      (hclash : State.Clash l r) : CallEnds w left right env .nil

theorem association_eq {mgu : TermSet} (h : ∀ pair ∈ mgu, ∃ x, pair.1 = .symbol x) :
    association mgu = replyOf (mgu.map fun pair => (boundSymbol pair.1, pair.2)) := by
  rw [association, replyOf, List.map_map]
  congr 1
  apply List.map_congr_left
  intro pair hpair
  obtain ⟨x, hx⟩ := h pair hpair
  simp [hx, boundSymbol]

/-- Every call on terms returns. -/
theorem callUnify_returns (hl : isTerm left = true) (hr : isTerm right = true)
    (henv : ∀ pair ∈ env, isTerm pair.1 = true ∧ isTerm pair.2 = true)
    (hd : RunsDirect w (pairsOf left right env)) :
    ∃ n reply, CallEnds w left right env reply ∧
      ∀ fuel ≥ n, callUnify w fuel left right env = (.value reply, .empty) := by
  obtain ⟨U, hU, hwithin⟩ := State.exists_within (problemOf w left right env).ws
  have hsolved : State.Solved (problemOf w left right env) := State.solved_start _
  obtain ⟨n, reply, hends, hloop⟩ := unifyLoop_ends hd (setsIn_pairsOf hl hr henv) hsolved
    (State.step_terminates hU hsolved hwithin)
  cases hends with
  | @done s' hrun hws hin =>
      have hstate : stateOf w s' =
          ⟨[], bindingsOf w (s'.mgu.map fun pair => (boundSymbol pair.1, pair.2))⟩ := by
        simp [stateOf, bindingsOf, hws]
      refine ⟨n, _, .bindings (hstate ▸ hrun), fun fuel hfuel => ?_⟩
      rw [callUnify_eq, hloop fuel hfuel false,
        ← association_eq fun pair hpair => (hin.mgu pair hpair).1.imp fun _ h => h.1]
      rfl
  | clash hrun hclash =>
      refine ⟨n, _, .clash hrun hclash, fun fuel hfuel => ?_⟩
      rw [callUnify_eq, hloop fuel hfuel false]

/-- The problem with the terms the other way round. -/
theorem problemOf_twin : State.Twin 1 (problemOf w left right env)
    (problemOf w right left env) := by
  have hone : ∀ t : Term CellLabel Symbol, State.rename 1 t = t := Term.subst_var
  constructor
  · refine .cons (.inr (by simp only [hone])) ?_
    change List.Forall₂ _ ((pairsOf left right env).ws.tail.map _)
      ((pairsOf left right env).ws.tail.map _)
    rw [List.forall₂_map_left_iff, List.forall₂_map_right_iff]
    exact List.forall₂_same.2 fun pair _ => .inl (by simp only [hone])
  · rfl

theorem run_unique {t a b : State CellLabel Symbol} (ha : ReflTransGen State.Step t a)
    (hb : ReflTransGen State.Step t b) (hend : ∀ c, ¬ State.Step a c) :
    ReflTransGen State.Step b a := by
  induction ha using ReflTransGen.head_induction_on with
  | refl =>
      rcases ReflTransGen.cases_head hb with rfl | ⟨c, hstep, -⟩
      · exact .refl
      · exact absurd hstep (hend c)
  | head hstep hrest ih =>
      rcases ReflTransGen.cases_head hb with rfl | ⟨c, hstep', hrest'⟩
      · exact hrest.head hstep
      · rw [State.step_deterministic hstep' hstep] at hrest'
        exact ih hrest'

theorem not_step_nil {mgu : BindingList CellLabel Symbol} (c : State CellLabel Symbol) :
    ¬ State.Step ⟨[], mgu⟩ c := by
  intro h
  cases h

theorem bindings_of_reply {bs bs' : List (Symbol × Cell)} (h : replyOf bs = replyOf bs') :
    bindingsOf w bs = bindingsOf w bs' := by
  have hmap := Cell.expression.inj h
  have hinj : Function.Injective fun b : Symbol × Cell => Cell.expression [.symbol b.1, b.2] := by
    rintro ⟨x, c⟩ ⟨y, d⟩ heq
    simp at heq
    rw [heq.1, heq.2]
  rw [(List.map_inj_right fun _ _ heq => hinj heq).1 hmap]

/-- The two orders of the terms end alike, up to the names of variables. -/
theorem callEnds_swap {reply reply' : Cell} (h : CallEnds w left right env reply)
    (h' : CallEnds w right left env reply') :
    (reply = .nil ∧ reply' = .nil) ∨ ∃ (bs bs' : List (Symbol × Cell)) (ρ : Equiv.Perm Symbol),
      reply = replyOf bs ∧ reply' = replyOf bs' ∧
      bindingsOf w bs' = (bindingsOf w bs).map fun b => (ρ b.1, State.rename ρ b.2) := by
  have hsolved : State.Solved (problemOf w left right env) := State.solved_start _
  cases h with
  | @bindings bs hrun =>
      obtain ⟨ρ, ⟨ws, mgu⟩, hrun', htwin⟩ := State.run_twin hrun hsolved problemOf_twin
      obtain ⟨hws, hmgu⟩ := htwin
      cases hws
      dsimp only at hmgu
      cases h' with
      | @bindings bs' hrun₂ =>
          have hlast := run_unique hrun' hrun₂ not_step_nil
          rcases ReflTransGen.cases_head hlast with heq | ⟨c, hstep, -⟩
          · refine .inr ⟨bs, bs', ρ, rfl, rfl, ?_⟩
            rw [← hmgu]
            exact congrArg State.mgu heq
          · exact absurd hstep (not_step_nil c)
      | clash hrun₂ hclash =>
          have hlast := run_unique hrun' hrun₂ not_step_nil
          rcases ReflTransGen.cases_head hlast with heq | ⟨c, hstep, -⟩
          · cases heq
          · exact absurd hstep (State.not_step_of_clash hclash)
  | clash hrun hclash =>
      obtain ⟨ρ, ⟨ws, mgu⟩, hrun', htwin⟩ := State.run_twin hrun hsolved problemOf_twin
      obtain ⟨hws, -⟩ := htwin
      cases hws with
      | @cons _ q _ ws' hpair hrest =>
          have hclash' : State.Clash q.1 q.2 := State.clash_twin hclash hpair
          have hend : ∀ c, ¬ State.Step ⟨q :: ws', mgu⟩ c := fun c =>
            State.not_step_of_clash hclash'
          cases h' with
          | bindings hrun₂ =>
              have hlast := run_unique hrun' hrun₂ hend
              rcases ReflTransGen.cases_head hlast with heq | ⟨c, hstep, -⟩
              · cases heq
              · exact absurd hstep (not_step_nil c)
          | clash _ _ => exact .inl ⟨rfl, rfl⟩

/-- `unify` on terms returns, with `nil` exactly when there is no solution and otherwise
with the bindings of a most general one, and the order of the terms changes only the names
of variables. -/
theorem unify_mostGeneral (left right : Cell) (env : List (Cell × Cell))
    (hl : isTerm left = true) (hr : isTerm right = true)
    (henv : ∀ pair ∈ env, isTerm pair.1 = true ∧ isTerm pair.2 = true)
    (hd : RunsDirect w (pairsOf left right env)) (hd' : RunsDirect w (pairsOf right left env))
    (hcopies : State.NeverCopies (problemOf w left right env)) :
    ∃ n reply reply', (∀ fuel ≥ n, callUnify w fuel left right env = (.value reply, .empty) ∧
        callUnify w fuel right left env = (.value reply', .empty)) ∧
      ((reply = .nil ∧ reply' = .nil ∧ ¬ ∃ σ, State.Solves σ (problemOf w left right env)) ∨
        ∃ (bs bs' : List (Symbol × Cell)) (ρ : Equiv.Perm Symbol),
          reply = replyOf bs ∧ reply' = replyOf bs' ∧
          (∃ σ, State.Solves σ (problemOf w left right env)) ∧
          State.MostGeneral (problemOf w left right env) (bindingsOf w bs) ∧
          bindingsOf w bs' = (bindingsOf w bs).map fun b => (ρ b.1, State.rename ρ b.2)) := by
  obtain ⟨n, reply, hends, hcall⟩ := callUnify_returns hl hr henv hd
  obtain ⟨n', reply', hends', hcall'⟩ := callUnify_returns hr hl henv hd'
  refine ⟨max n n', reply, reply', fun fuel hfuel => ⟨hcall fuel ?_, hcall' fuel ?_⟩, ?_⟩
  · exact (le_max_left n n').trans hfuel
  · exact (le_max_right n n').trans hfuel
  have hsolved : State.Solved (problemOf w left right env) := State.solved_start _
  rcases callEnds_swap hends hends' with ⟨rfl, rfl⟩ | ⟨bs, bs', ρ, rfl, rfl, hrename⟩
  · cases hends with
    | clash hrun hclash => exact .inl ⟨rfl, rfl, State.not_solves_of_run hrun hclash hcopies⟩
  · have hrun : ReflTransGen State.Step (problemOf w left right env) ⟨[], bindingsOf w bs⟩ := by
      generalize hreply : replyOf bs = reply at hends
      cases hends with
      | bindings hrun =>
          rw [bindings_of_reply (w := w) hreply]
          exact hrun
      | clash _ _ => simp [replyOf] at hreply
    have hgeneral := State.mostGeneral_of_run hrun hsolved hcopies
    obtain ⟨σ, hσ⟩ := hgeneral.solvable
    exact .inr ⟨bs, bs', ρ, rfl, rfl, ⟨σ, hgeneral.sound σ hσ⟩, hgeneral, hrename⟩

end Calls

section Examples

theorem direct_lists {w : World} {s : Sets} (cells cells' : List Cell) :
    Direct w (.expression cells) (.expression cells') s where
  atoms := by simp [unifyGetType]
  varLeft := by simp
  varRight := by simp

theorem direct_longs {w : World} {s : Sets} (n : Word) : Direct w (.long n) (.long n) s where
  atoms := by simp [sameCells, compareCells, compareWords]
  varLeft := by simp
  varRight := by simp

theorem ownAddress_X : OwnAddress startupWorld (mainSymbol "X") appliedY ⟨[], []⟩ where
  term := by
    intro c hc
    have hnamed : c = named "f" ∨ c = named "Y" := by
      simpa [appliedY, atomsOf, atomsOfAll, named] using hc
    rcases hnamed with rfl | rfl <;> decide
  sets := by simp

theorem direct_left : Direct startupWorld (named "X") appliedY ⟨[], []⟩ where
  atoms h := by cases h
  varLeft x hx _ _ _ := Cell.symbol.inj hx ▸ ownAddress_X
  varRight x hx := by cases hx

theorem direct_right : Direct startupWorld appliedY (named "X") ⟨[], []⟩ where
  atoms h := by cases h
  varLeft x hx := by cases hx
  varRight x hx _ _ _ _ := Cell.symbol.inj hx ▸ ownAddress_X

theorem runsDirect_left : RunsDirect startupWorld
    (pairsOf variableAndOne (.expression [appliedY, .long 1]) []) := by
  refine runsDirect_cons (direct_lists _ _) fun s hs => ?_
  obtain rfl : ⟨[(.long 1, .long 1), (named "X", appliedY)], []⟩ = s := by cases hs; rfl
  refine runsDirect_cons (direct_longs 1) fun s hs => ?_
  obtain rfl : ⟨[(named "X", appliedY)], []⟩ = s := by cases hs; rfl
  refine runsDirect_cons direct_left fun s hs => ?_
  obtain rfl : ⟨[], [(named "X", appliedY)]⟩ = s := by cases hs; rfl
  exact runsDirect_nil _

theorem runsDirect_right : RunsDirect startupWorld
    (pairsOf (.expression [appliedY, .long 1]) variableAndOne []) := by
  refine runsDirect_cons (direct_lists _ _) fun s hs => ?_
  obtain rfl : ⟨[(.long 1, .long 1), (appliedY, named "X")], []⟩ = s := by cases hs; rfl
  refine runsDirect_cons (direct_longs 1) fun s hs => ?_
  obtain rfl : ⟨[(appliedY, named "X")], []⟩ = s := by cases hs; rfl
  refine runsDirect_cons direct_right fun s hs => ?_
  obtain rfl : ⟨[], [(named "X", appliedY)]⟩ = s := by cases hs; rfl
  exact runsDirect_nil _

/-- `(unify '(X 1) '((f Y) 1))` has a most general solution, in either order. -/
theorem unify_mostGeneral_applied :
    ∃ n reply reply', (∀ fuel ≥ n,
        callUnify startupWorld fuel variableAndOne (.expression [appliedY, .long 1]) [] =
          (.value reply, .empty) ∧
        callUnify startupWorld fuel (.expression [appliedY, .long 1]) variableAndOne [] =
          (.value reply', .empty)) ∧
      ∃ (bs bs' : List (Symbol × Cell)) (ρ : Equiv.Perm Symbol),
        reply = replyOf bs ∧ reply' = replyOf bs' ∧
        State.MostGeneral (problemOf startupWorld variableAndOne
          (.expression [appliedY, .long 1]) []) (bindingsOf startupWorld bs) ∧
        bindingsOf startupWorld bs' =
          (bindingsOf startupWorld bs).map fun b => (ρ b.1, State.rename ρ b.2) := by
  obtain ⟨n, reply, reply', hcalls, h⟩ := unify_mostGeneral (w := startupWorld) variableAndOne
    (.expression [appliedY, .long 1]) [] rfl rfl (by simp) runsDirect_left runsDirect_right
    (State.neverCopies_of_plainPairs (by
      simp only [State.PlainPairs, problemOf, stateOf, pairsOf, List.reverse_nil, List.map_cons,
        List.map_nil, List.mem_singleton, forall_eq]
      exact ⟨⟨trivial, trivial, trivial⟩, ⟨⟨trivial, trivial, trivial⟩, trivial, trivial⟩⟩))
  refine ⟨n, reply, reply', hcalls, ?_⟩
  rcases h with ⟨hnil, -, -⟩ | ⟨bs, bs', ρ, hbs, hbs', -, hgeneral, hrename⟩
  · have hreply := (hcalls (n + 4) (Nat.le_add_right n 4)).1
    have hloop : unifyLoop startupWorld false (n + 4)
        (pairsOf variableAndOne (.expression [appliedY, .long 1]) []) =
          (.value (.expression [.expression [named "X", appliedY]]), .empty) := rfl
    rw [hnil, callUnify_eq, hloop] at hreply
    cases hreply
  · exact ⟨bs, bs', ρ, hbs, hbs', hgeneral, hrename⟩

/-- `(f c)`. -/
def applied (name : String) : Cell := .expression [named "f", named name]

def nameLabel (name : String) : CellLabel := labelOf startupWorld.rt (named name)

def appliedTerm (name : String) : Term CellLabel Symbol :=
  .list [.const (nameLabel "f"), .const (nameLabel name)]

/-- `(unify '(X X X) '((f a) (f b) (f _)))` replies `((X (f _)))`, though nothing is both
`(f a)` and `(f b)`. -/
theorem unify_copies_anonymous :
    callUnify startupWorld 20 (.expression [named "X", named "X", named "X"])
      (.expression [applied "a", applied "b", applied "_"]) [] =
      (.value (.expression [.expression [named "X", applied "_"]]), .empty) ∧
    ¬ ∃ σ, State.Solves σ (problemOf startupWorld
      (.expression [named "X", named "X", named "X"])
      (.expression [applied "a", applied "b", applied "_"]) []) := by
  constructor
  · rfl
  · rintro ⟨σ, hσ⟩
    have hpair := hσ.ws (.list [.var (mainSymbol "X"), .var (mainSymbol "X"),
      .var (mainSymbol "X")], .list [appliedTerm "a", appliedTerm "b",
        .list [.const (nameLabel "f"), .any]]) List.mem_cons_self
    simp only [appliedTerm, Term.subst, Term.substAll, Term.Agree, Term.AgreeAll] at hpair
    have hplain : ∀ name, Term.Plain (appliedTerm name) := fun name =>
      ⟨trivial, trivial, trivial⟩
    have ha := Term.eq_of_agree (hσ.plain _) (hplain "a") hpair.1
    have hb := Term.eq_of_agree (hσ.plain _) (hplain "b") hpair.2.1
    have hlabels : nameLabel "a" = nameLabel "b" := by
      have heq := ha.symm.trans hb
      simpa [appliedTerm] using heq
    exact absurd hlabels (by decide)

end Examples

end Unify

end NewLispNeo
