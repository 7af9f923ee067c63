/-
When a collection of the nursery covers the symbols of every context.
-/
import NewLispNeo.Nursery
import Mathlib.Algebra.BigOperators.Group.Finset.Basic
import Mathlib.Tactic.SplitIfs

namespace NewLispNeo

open RedBlack BoundedWalk

/-- The links of symbols. -/
def linksOf (contents : Nat → Option GcCell) (xs : List Nat) : List (Nat × Option Nat) :=
  xs.filterMap (linkAt contents)

/-- The contents after these symbols are evacuated. -/
def evacuated (contents : Nat → Option GcCell) (done : Finset Nat) (y : Nat) : Option GcCell :=
  if y ∈ done then (contents y).map GcCell.gcEvacuate else contents y

/-- The cells that are taken for these symbols. -/
def takenFor (contents : Nat → Option GcCell) (done : Finset Nat) : Nat :=
  ∑ s ∈ done, (contents s).elim 0 GcCell.taken

section Evacuated

variable (contents : Nat → Option GcCell) (done : Finset Nat) (x y : Nat)

@[simp] theorem evacuated_empty : evacuated contents ∅ = contents := by
  funext y
  simp [evacuated]

@[simp] theorem linkAt_evacuated : linkAt (evacuated contents done) y = linkAt contents y := by
  unfold linkAt evacuated
  split_ifs
  · cases contents y <;> simp
  · rfl

theorem linksOf_append (xs ys : List Nat) :
    linksOf contents (xs ++ ys) = linksOf contents xs ++ linksOf contents ys :=
  List.filterMap_append ..

theorem root_of_mem_linksOf {xs : List Nat} {p : Nat × Option Nat}
    (h : p ∈ linksOf contents xs) : ∃ aux, p.2 = some aux := by
  obtain ⟨s, -, hlink⟩ := List.mem_filterMap.1 h
  obtain ⟨cell, -, hlink⟩ := Option.bind_eq_some_iff.1 hlink
  exact GcCell.root_of_link hlink

end Evacuated

/-- The state with the contents of the symbol moved, if it has any. -/
def GcState.moved (g : GcState) (x : Nat) : GcState :=
  match g.contents x with
  | none => g
  | some cell => g.evacuate x cell

@[simp] theorem GcState.moved_visitedContexts (g : GcState) (x : Nat) :
    (g.moved x).visitedContexts = g.visitedContexts := by
  unfold moved
  split <;> rfl

theorem gcWalkSymbol_eq (walk : Nat → GcState → Option GcState) (x : Nat) (g : GcState) :
    gcWalkSymbol walk x g =
      match linkAt g.contents x with
      | some (ctx, some aux) =>
          if ctx ≠ nilSym ∧ ctx ∉ g.visitedContexts then
            if aux ≠ nilSym then walk aux ((g.moved x).visit ctx aux)
            else some ((g.moved x).visit ctx aux)
          else some (g.moved x)
      | _ => some (g.moved x) := by
  unfold gcWalkSymbol GcState.moved linkAt
  cases g.contents x with
  | none => rfl
  | some cell =>
      simp only [GcCell.link_gcEvacuate]
      rfl

/-- What every step of the walk leaves as it was: the contexts walked before, and the
links of all symbols. -/
structure GcState.Extends (g g' : GcState) : Prop where
  walked : g.walked <+: g'.walked
  links : ∀ y, linkAt g'.contents y = linkAt g.contents y

namespace GcState.Extends

variable {g g₁ g₂ : GcState} {x : Nat}

theorem rfl : g.Extends g := ⟨List.prefix_rfl, fun _ => Eq.refl _⟩

theorem trans (h₁ : g.Extends g₁) (h₂ : g₁.Extends g₂) : g.Extends g₂ :=
  ⟨h₁.walked.trans h₂.walked, fun y => (h₂.links y).trans (h₁.links y)⟩

theorem visit (ctx root : Nat) : g.Extends (g.visit ctx root) :=
  ⟨List.prefix_append .., fun _ => Eq.refl _⟩

theorem moved (x : Nat) : g.Extends (g.moved x) where
  walked := by
    unfold GcState.moved
    split <;> exact List.prefix_rfl
  links y := by
    unfold GcState.moved
    split
    · exact Eq.refl _
    next cell hcell =>
      by_cases hy : y = x
      · subst hy
        simp [linkAt, GcState.evacuate, hcell]
      · simp [linkAt, GcState.evacuate, hy]

theorem walkSymbol {walk : Nat → GcState → Option GcState}
    (hwalk : ∀ x g₁ g₂, walk x g₁ = some g₂ → g₁.Extends g₂)
    (h : gcWalkSymbol walk x g = some g₁) : g.Extends g₁ := by
  rw [gcWalkSymbol_eq] at h
  split at h
  · split_ifs at h
    · exact ((moved x).trans (visit ..)).trans (hwalk _ _ _ h)
    · cases h
      exact (moved x).trans (visit ..)
    · cases h
      exact moved x
  · cases h
    exact moved x

theorem walkSymbolTree {T : SymbolTree} {fuel : Nat}
    (h : gcWalkSymbolTree T fuel x g = some g₁) : g.Extends g₁ := by
  induction fuel generalizing x g g₁ with
  | zero => simp [gcWalkSymbolTree] at h
  | succ fuel ih =>
      unfold gcWalkSymbolTree at h
      split_ifs at h with hx
      · cases h
        exact rfl
      · simp only [Option.bind_eq_some_iff] at h
        obtain ⟨g₂, hleft, g₃, hsymbol, hright⟩ := h
        exact (ih hleft).trans ((walkSymbol (fun _ _ _ => ih) hsymbol).trans (ih hright))

end GcState.Extends

theorem gcWalkSymbol_mono {walk walk' : Nat → GcState → Option GcState} {x : Nat}
    {g g' : GcState} (hwalk : ∀ x g g', walk x g = some g' → walk' x g = some g')
    (h : gcWalkSymbol walk x g = some g') : gcWalkSymbol walk' x g = some g' := by
  rw [gcWalkSymbol_eq] at h ⊢
  split at h
  · split_ifs at h ⊢
    · exact hwalk _ _ _ h
    · exact h
    · exact h
  · exact h

/-- More fuel leads to the same end. -/
theorem gcWalkSymbolTree_mono {T : SymbolTree} {fuel k x : Nat} {g g' : GcState}
    (h : gcWalkSymbolTree T fuel x g = some g') (hk : fuel ≤ k) :
    gcWalkSymbolTree T k x g = some g' := by
  induction fuel generalizing k x g g' with
  | zero => simp [gcWalkSymbolTree] at h
  | succ fuel ih =>
      obtain ⟨k, rfl⟩ : ∃ k', k = k' + 1 := ⟨k - 1, by omega⟩
      have hk : fuel ≤ k := by omega
      unfold gcWalkSymbolTree at h ⊢
      split_ifs at h ⊢ with hx
      · exact h
      · simp only [Option.bind_eq_some_iff] at h ⊢
        obtain ⟨g₁, hleft, g₂, hsymbol, hright⟩ := h
        exact ⟨g₁, ih hleft hk, g₂, gcWalkSymbol_mono (fun _ _ _ h => ih h hk) hsymbol,
          ih hright hk⟩

namespace ContextHeap

variable (H : ContextHeap)

/-- The contexts that can be reached from MAIN, or from the current context. -/
abbrev Live (c : Nat) : Prop := H.toGcHeap.Live H.tree c

/-- The links of the symbols of a context. -/
def held (ctx : Nat) : List (Nat × Option Nat) := linksOf H.contents (H.tree ctx).toList

/-- What the walk starts with. -/
def starts : List (Nat × Option Nat) :=
  [(H.mainContext, H.contextRoot H.mainContext), (H.currentContext, H.contextRoot H.currentContext)]

/-- The symbols of the contexts that are entered. -/
def symbolsOf (entered : List (Nat × Option Nat)) : Finset Nat :=
  (entered.flatMap fun p => (H.tree p.1).toList).toFinset

/-- A symbol of a live context. -/
def LiveSymbol (s : Nat) : Prop := ∃ c, H.Live c ∧ s ∈ (H.tree c).toList

/-- A walk over the links of a heap. -/
abbrev Walks (table : List Nat) (links : List (Nat × Option Nat)) (table' : List Nat)
    (entered : List (Nat × Option Nat)) : Prop :=
  Walk maxContexts H.held H.contextRoot table links table' entered

variable {H}

@[simp] theorem symbolsOf_nil : H.symbolsOf [] = ∅ := rfl

@[simp] theorem symbolsOf_cons (p : Nat × Option Nat) (entered : List (Nat × Option Nat)) :
    H.symbolsOf (p :: entered) = (H.tree p.1).toList.toFinset ∪ H.symbolsOf entered := by
  simp [symbolsOf]

@[simp] theorem symbolsOf_append (entered₁ entered₂ : List (Nat × Option Nat)) :
    H.symbolsOf (entered₁ ++ entered₂) = H.symbolsOf entered₁ ∪ H.symbolsOf entered₂ := by
  simp [symbolsOf]

theorem mem_symbolsOf {entered : List (Nat × Option Nat)} {s : Nat} :
    s ∈ H.symbolsOf entered ↔ ∃ p ∈ entered, s ∈ (H.tree p.1).toList := by
  simp [symbolsOf]

/-- The symbols of a live context hold live contexts. -/
theorem live_of_link {xs : List Nat} (hxs : ∀ s ∈ xs, H.LiveSymbol s) :
    ∀ p ∈ linksOf H.contents xs, H.Live p.1 := by
  intro p hp
  obtain ⟨s, hs, hlink⟩ := List.mem_filterMap.1 hp
  obtain ⟨cell, hcell, hlink⟩ := Option.bind_eq_some_iff.1 hlink
  obtain ⟨c, hc, hmem⟩ := hxs s hs
  exact .step hc hmem hcell (GcCell.link_mem_contexts hlink)

theorem liveSymbol_of_mem {c : Nat} (hc : H.Live c) : ∀ s ∈ (H.tree c).toList, H.LiveSymbol s :=
  fun _ hs => ⟨c, hc, hs⟩

theorem live_of_met {d : Nat} (h : Met H.held H.starts d) : H.Live d := by
  induction h with
  | @link link hmem =>
      rcases List.mem_pair.1 hmem with rfl | rfl
      · exact .main
      · exact .current
  | held _ hmem ih => exact live_of_link (liveSymbol_of_mem ih) _ hmem

/-- The tree of a context whose root is nil has no symbol. -/
theorem tree_eq_nil {c : Nat} (hc : H.Live c) (h : H.contextRoot c = some nilSym) :
    H.tree c = .nil := by
  have hlinked := H.linked hc
  rw [h, Option.getD_some] at hlinked
  cases htree : H.tree c with
  | nil => rfl
  | node color l v r =>
      rw [htree] at hlinked
      exact absurd hlinked.1.symm hlinked.2.1

section Complete

variable (H) in
/-- A state of the walk by the symbols it has evacuated and the contexts it has entered. -/
structure At (g : GcState) (done : Finset Nat) (table : List Nat)
    (entered : List (Nat × Option Nat)) : Prop where
  contents : g.contents = evacuated H.contents done
  visited : g.visitedContexts = table
  walked : g.walked = entered
  taken : g.taken = takenFor H.contents done

variable (H) in
/-- What is moved from a symbol of a live context has left the nursery: this can fail only
for a cell that was moved before, into the nursery. -/
def Settles : Prop :=
  ∀ s, H.LiveSymbol s → ∀ cell, H.contents s = some cell → cell.gcEvacuate.gen0 = false

variable {g : GcState} {done : Finset Nat} {table : List Nat}
  {entered₀ entered : List (Nat × Option Nat)} {v : Nat} {cell : GcCell}

theorem At.linkAt (hg : H.At g done table entered) (y : Nat) :
    linkAt g.contents y = linkAt H.contents y := by
  rw [hg.contents, linkAt_evacuated]

theorem At.visit (hg : H.At g done table entered) (ctx root : Nat) :
    H.At (g.visit ctx root) done (record maxContexts table ctx)
      (entered ++ [(ctx, some root)]) where
  contents := hg.contents
  visited := by rw [GcState.visit, hg.visited]
  walked := by rw [GcState.visit, hg.walked]
  taken := hg.taken

/-- A symbol that is evacuated again stays as it is. -/
theorem At.moved (hsettles : H.Settles) (hv : H.LiveSymbol v)
    (hg : H.At g done table entered) : H.At (g.moved v) (insert v done) table entered := by
  have hcontents : g.contents v = evacuated H.contents done v := by rw [hg.contents]
  rw [evacuated] at hcontents
  unfold GcState.moved
  by_cases hmem : v ∈ done
  · rw [if_pos hmem] at hcontents
    rw [Finset.insert_eq_of_mem hmem]
    split
    · exact hg
    next cell hcell =>
      obtain ⟨old, hold, rfl⟩ := Option.map_eq_some_iff.1 (hcontents.symm.trans hcell)
      have hgen0 := hsettles v hv old hold
      refine ⟨?_, hg.visited, hg.walked, ?_⟩
      · rw [GcState.evacuate, hg.contents, GcCell.gcEvacuate_of_gen0 hgen0]
        exact Function.update_eq_self_iff.2
          (by rw [evacuated, if_pos hmem, hold, Option.map_some])
      · rw [GcState.evacuate, GcCell.taken_of_gen0 hgen0, hg.taken, Nat.add_zero]
  · rw [if_neg hmem] at hcontents
    have htaken : takenFor H.contents (insert v done) =
        (g.contents v).elim 0 GcCell.taken + g.taken := by
      rw [takenFor, Finset.sum_insert hmem, hcontents, hg.taken, takenFor]
    have hevacuated : evacuated H.contents (insert v done) =
        Function.update g.contents v ((g.contents v).map GcCell.gcEvacuate) := by
      funext y
      by_cases hy : y = v
      · subst hy
        simp [evacuated, hcontents]
      · simp [evacuated, hy, hg.contents]
    split
    next hcell =>
      rw [hcell] at htaken hevacuated
      refine ⟨?_, hg.visited, hg.walked, by simp [htaken]⟩
      rw [hevacuated, Option.map_none]
      exact (Function.update_eq_self_iff.2 hcell.symm).symm
    next cell hcell =>
      rw [hcell] at htaken hevacuated
      exact ⟨hevacuated.symm, hg.visited, hg.walked,
        by simp [GcState.evacuate, htaken, Nat.add_comm]⟩

variable {t : ColoredTree Nat} {q : Option Nat} {x : Nat} {table₀ : List Nat}

variable (H) in
/-- The walk of the tree at `x` ends, with these symbols evacuated besides. -/
def Runs (x : Nat) (g : GcState) (done : Finset Nat) (table : List Nat)
    (entered : List (Nat × Option Nat)) : Prop :=
  ∃ fuel g', gcWalkSymbolTree H.symbols fuel x g = some g' ∧ H.At g' done table entered

/-- The walk into a context, which is none below an empty root. -/
theorem enters_of_run {fuel aux : Nat} {g g' : GcState}
    (h : gcWalkSymbolTree H.symbols fuel aux g = some g') :
    (if aux ≠ nilSym then gcWalkSymbolTree H.symbols fuel aux g else some g) = some g' := by
  split_ifs with haux
  · exact h
  · cases fuel with
    | zero => simp [gcWalkSymbolTree] at h
    | succ fuel => simpa [gcWalkSymbolTree, of_not_not haux] using h

theorem run_of_enters {fuel aux : Nat} {g g' : GcState}
    (h : (if aux ≠ nilSym then gcWalkSymbolTree H.symbols fuel aux g else some g) = some g') :
    gcWalkSymbolTree H.symbols (fuel + 1) aux g = some g' := by
  split_ifs at h with haux
  · exact gcWalkSymbolTree_mono h (Nat.le_succ _)
  · simpa [gcWalkSymbolTree, of_not_not haux] using h

/-- What the link of a symbol says. -/
theorem links_cases (v : Nat) :
    (linkAt H.contents v = none ∧ linksOf H.contents [v] = []) ∨
      ∃ d aux, linkAt H.contents v = some (d, some aux) ∧
        linksOf H.contents [v] = [(d, some aux)] := by
  cases hlink : linkAt H.contents v with
  | none => exact .inl ⟨rfl, by simp [linksOf, hlink]⟩
  | some p =>
      have hone : linksOf H.contents [v] = [p] := by simp [linksOf, hlink]
      obtain ⟨aux, haux⟩ : ∃ aux, p.2 = some aux :=
        @root_of_mem_linksOf H.contents [v] p (by simp [hone])
      exact .inr ⟨p.1, aux, by rw [← haux], by rw [hone, ← haux]⟩

theorem live_of_one (hv : H.LiveSymbol v) {d aux : Nat}
    (hone : linksOf H.contents [v] = [(d, some aux)]) : H.Live d := by
  refine @live_of_link H [v] ?_ (d, some aux) (by simp [hone])
  exact fun s hs => List.mem_singleton.1 hs ▸ hv

/-- One symbol, where a walk over its link can go on into the context. -/
theorem exists_run_symbol (hsettles : H.Settles) (hv : H.LiveSymbol v)
    (hg : H.At g done table₀ entered₀)
    (hwalk : H.Walks table₀ (linksOf H.contents [v]) table entered)
    (henter : ∀ d, H.Live d → ∀ g₁ done₁ table₁ entered₁ entered',
      entered'.length < entered.length → H.At g₁ done₁ table₁ entered₁ →
      H.Walks table₁ (H.held d) table entered' →
      H.Runs ((H.contextRoot d).getD nilSym) g₁
        (done₁ ∪ (H.tree d).toList.toFinset ∪ H.symbolsOf entered') table (entered₁ ++ entered')) :
    ∃ fuel g', gcWalkSymbol (gcWalkSymbolTree H.symbols fuel) v g = some g' ∧
      H.At g' (insert v done ∪ H.symbolsOf entered) table (entered₀ ++ entered) := by
  have hmoved := hg.moved hsettles hv
  simp only [gcWalkSymbol_eq, hg.linkAt v]
  rcases H.links_cases v with ⟨hlink, hlinks⟩ | ⟨d, aux, hlink, hlinks⟩
  · rw [hlinks] at hwalk
    cases hwalk
    exact ⟨0, _, by rw [hlink], by simpa using hmoved⟩
  · have hd := live_of_one hv hlinks
    simp only [hlink]
    rw [hlinks] at hwalk
    cases hwalk with
    | skip hseen hrest =>
        cases hrest
        refine ⟨0, _, if_neg fun hif => ?_, by simpa using hmoved⟩
        exact hif.2 (hg.visited ▸ hseen)
    | @enter _ table₁ _ _ _ entered₁ _ hseen hroot hheld hrest =>
        cases hrest
        have hin := henter d hd _ _ _ _ entered₁ (by simp) (hmoved.visit d aux) hheld
        rw [← (hroot : some aux = H.contextRoot d), Option.getD_some] at hin
        obtain ⟨fuel, g', hrun, hg'⟩ := hin
        refine ⟨fuel, g', ?_, by simpa [Finset.union_assoc] using hg'⟩
        rw [if_pos ⟨H.nonNil hd, hg.visited ▸ hseen⟩]
        exact enters_of_run hrun

/-- A walk over the links of a tree is one that the collection makes. -/
theorem exists_run (hsettles : H.Settles) (n : Nat) :
    ∀ {t : ColoredTree Nat} {q : Option Nat} {x : Nat} {g : GcState} {done : Finset Nat}
      {table₀ table : List Nat} {entered₀ entered : List (Nat × Option Nat)},
      H.symbols.Linked q x t → (∀ y ∈ t.toList, H.LiveSymbol y) → entered.length ≤ n →
      H.At g done table₀ entered₀ → H.Walks table₀ (linksOf H.contents t.toList) table entered →
      H.Runs x g (done ∪ t.toList.toFinset ∪ H.symbolsOf entered) table (entered₀ ++ entered) := by
  induction n using Nat.strong_induction_on with
  | h n ihn =>
      intro t
      induction t with
      | nil =>
          intro q x g done table₀ table entered₀ entered hx hlive hn hg hwalk
          cases hwalk
          obtain rfl : x = nilSym := hx
          exact ⟨1, g, by simp [gcWalkSymbolTree], by simpa [ColoredTree.toList] using hg⟩
      | node c l v r ihl ihr =>
          intro q x g done table₀ table entered₀ entered hx hlive hn hg hwalk
          obtain ⟨rfl, hv, -, -, hl, hr⟩ := hx
          have hlinks : linksOf H.contents (ColoredTree.node c l x r).toList =
              linksOf H.contents l.toList ++
                (linksOf H.contents [x] ++ linksOf H.contents r.toList) := by
            rw [← linksOf_append, ← linksOf_append]
            rfl
          rw [hlinks] at hwalk
          obtain ⟨table₁, entered₁, _, hwalk₁, hrest, rfl⟩ := hwalk.of_append
          obtain ⟨table₂, entered₂, entered₃, hwalk₂, hwalk₃, rfl⟩ := hrest.of_append
          simp only [List.length_append] at hn
          obtain ⟨fuel₁, g₁, hrun₁, hg₁⟩ := ihl hl
            (fun y hy => hlive y (by simp [ColoredTree.toList, hy])) (by omega) hg hwalk₁
          obtain ⟨fuel₂, g₂, hrun₂, hg₂⟩ := exists_run_symbol hsettles
            (hlive x (by simp [ColoredTree.toList])) hg₁ hwalk₂
            fun d hd g' done' table' entered' entered'' hlt hg' hwalk' =>
              ihn entered''.length (by omega) (H.linked hd) (liveSymbol_of_mem hd) le_rfl hg' hwalk'
          obtain ⟨fuel₃, g₃, hrun₃, hg₃⟩ := ihr hr
            (fun y hy => hlive y (by simp [ColoredTree.toList, hy])) (by omega) hg₂ hwalk₃
          refine ⟨fuel₁ + fuel₂ + fuel₃ + 1, g₃, ?_, ?_⟩
          · rw [gcWalkSymbolTree, if_neg hv, gcWalkSymbolTree_mono hrun₁ (by omega),
              Option.bind_some, gcWalkSymbol_mono
                (fun _ _ _ h => gcWalkSymbolTree_mono h (by omega)) hrun₂,
              Option.bind_some, gcWalkSymbolTree_mono hrun₃ (by omega)]
          · have hdone : insert x (done ∪ l.toList.toFinset ∪ H.symbolsOf entered₁) ∪
                H.symbolsOf entered₂ ∪ r.toList.toFinset ∪ H.symbolsOf entered₃ =
                done ∪ (ColoredTree.node c l x r).toList.toFinset ∪
                  H.symbolsOf (entered₁ ++ (entered₂ ++ entered₃)) := by
              ext y
              simp only [ColoredTree.toList, symbolsOf_append, Finset.mem_union,
                Finset.mem_insert, List.mem_toFinset, List.mem_append, List.mem_cons]
              tauto
            rw [hdone] at hg₃
            simpa [List.append_assoc] using hg₃

end Complete

section Sound

variable {v : Nat} {g g' : GcState} {walk : Nat → GcState → Option GcState}

theorem walks_of_run_symbol (hv : H.LiveSymbol v)
    (hlinks : ∀ y, linkAt g.contents y = linkAt H.contents y)
    (hextends : ∀ x g₁ g₂, walk x g₁ = some g₂ → g₁.Extends g₂)
    (hrun : gcWalkSymbol walk v g = some g')
    (hroots : ∀ p ∈ g'.walked, p.2 = H.contextRoot p.1)
    (henter : ∀ d, H.Live d → ∀ aux g₁, H.contextRoot d = some aux → g.Extends g₁ →
      walk aux g₁ = some g' →
      ∃ entered, H.Walks g₁.visitedContexts (H.held d) g'.visitedContexts entered) :
    ∃ entered, H.Walks g.visitedContexts (linksOf H.contents [v]) g'.visitedContexts entered := by
  rw [gcWalkSymbol_eq, hlinks v] at hrun
  rcases H.links_cases v with ⟨hlink, hnone⟩ | ⟨d, aux, hlink, hone⟩
  · rw [hlink] at hrun
    cases hrun
    rw [hnone, GcState.moved_visitedContexts]
    exact ⟨[], .nil⟩
  · have hd := live_of_one hv hone
    rw [hone]
    simp only [hlink] at hrun
    by_cases hseen : d ∈ g.visitedContexts
    · rw [if_neg fun h => h.2 hseen] at hrun
      cases hrun
      rw [GcState.moved_visitedContexts]
      exact ⟨[], .skip hseen .nil⟩
    · rw [if_pos ⟨H.nonNil hd, hseen⟩] at hrun
      have hroot : some aux = H.contextRoot d := by
        refine hroots (d, some aux) ?_
        have hvisit : (d, some aux) ∈ ((g.moved v).visit d aux).walked := by
          simp [GcState.visit]
        split_ifs at hrun
        · exact (hextends _ _ _ hrun).walked.subset hvisit
        · cases hrun
          exact hvisit
      have hinside : ∃ entered, H.Walks (record maxContexts g.visitedContexts d) (H.held d)
          g'.visitedContexts entered := by
        have htable : ((g.moved v).visit d aux).visitedContexts =
            record maxContexts g.visitedContexts d := by
          rw [GcState.visit, GcState.moved_visitedContexts]
        rw [← htable]
        split_ifs at hrun with haux
        · exact henter d hd aux _ hroot.symm ((GcState.Extends.moved v).trans (.visit d aux)) hrun
        · cases hrun
          have hempty := tree_eq_nil hd (of_not_not haux ▸ hroot.symm)
          rw [held, hempty]
          exact ⟨[], .nil⟩
      obtain ⟨entered, hwalk⟩ := hinside
      exact ⟨_, .enter hseen hroot hwalk .nil⟩

/-- A walk of the collection that enters the contexts by their roots is one over the
links. -/
theorem walks_of_run {fuel : Nat} :
    ∀ {t : ColoredTree Nat} {q : Option Nat} {x : Nat} {g g' : GcState},
      H.symbols.Linked q x t → (∀ y ∈ t.toList, H.LiveSymbol y) →
      (∀ y, linkAt g.contents y = linkAt H.contents y) →
      gcWalkSymbolTree H.symbols fuel x g = some g' →
      (∀ p ∈ g'.walked, p.2 = H.contextRoot p.1) →
      ∃ entered, H.Walks g.visitedContexts (linksOf H.contents t.toList) g'.visitedContexts
        entered := by
  induction fuel with
  | zero =>
      intro t q x g g' hx hlive hlinks hrun
      simp [gcWalkSymbolTree] at hrun
  | succ fuel ih =>
      intro t q x g g' hx hlive hlinks hrun hroots
      cases t with
      | nil =>
          obtain rfl : x = nilSym := hx
          simp only [gcWalkSymbolTree, ↓reduceIte, Option.some.injEq] at hrun
          subst hrun
          exact ⟨[], .nil⟩
      | node c l v r =>
          obtain ⟨rfl, hv, -, -, hl, hr⟩ := hx
          have hsplit : linksOf H.contents (ColoredTree.node c l x r).toList =
              linksOf H.contents l.toList ++
                (linksOf H.contents [x] ++ linksOf H.contents r.toList) := by
            rw [← linksOf_append, ← linksOf_append]
            rfl
          rw [gcWalkSymbolTree, if_neg hv] at hrun
          obtain ⟨g₁, hleft, hrun⟩ := Option.bind_eq_some_iff.1 hrun
          obtain ⟨g₂, hsymbol, hright⟩ := Option.bind_eq_some_iff.1 hrun
          have hstep₁ := GcState.Extends.walkSymbolTree hleft
          have hstep₂ := GcState.Extends.walkSymbol
            (fun _ _ _ => GcState.Extends.walkSymbolTree) hsymbol
          have hstep₃ := GcState.Extends.walkSymbolTree hright
          have hlinks₁ : ∀ y, linkAt g₁.contents y = linkAt H.contents y :=
            fun y => (hstep₁.links y).trans (hlinks y)
          have hlinks₂ : ∀ y, linkAt g₂.contents y = linkAt H.contents y :=
            fun y => (hstep₂.links y).trans (hlinks₁ y)
          have hroots₂ : ∀ p ∈ g₂.walked, p.2 = H.contextRoot p.1 :=
            fun p hp => hroots p (hstep₃.walked.subset hp)
          obtain ⟨entered₁, hwalk₁⟩ := ih hl
            (fun y hy => hlive y (by simp [ColoredTree.toList, hy])) hlinks hleft
            fun p hp => hroots₂ p (hstep₂.walked.subset hp)
          obtain ⟨entered₂, hwalk₂⟩ := walks_of_run_symbol
            (hlive x (by simp [ColoredTree.toList])) hlinks₁
            (fun _ _ _ => GcState.Extends.walkSymbolTree) hsymbol hroots₂
            fun d hd aux g' hroot hstep hrun' =>
              ih (q := none) (by simpa [hroot] using H.linked hd) (liveSymbol_of_mem hd)
                (fun y => (hstep.links y).trans (hlinks₁ y)) hrun' hroots₂
          obtain ⟨entered₃, hwalk₃⟩ := ih hr
            (fun y hy => hlive y (by simp [ColoredTree.toList, hy])) hlinks₂ hright hroots
          rw [hsplit]
          exact ⟨_, hwalk₁.append (hwalk₂.append hwalk₃)⟩

end Sound

/-! ### The whole collection -/

variable (H)

/-- The symbol of the context holds a context cell. -/
def HoldsContext (c : Nat) : Prop := ∃ root, H.contextRoot c = some root

/-- The collection ends, it evacuates the symbols of every live context, at any depth and
out of the nursery, and it walks a context by its current root.  `free` tells of the cells
of `firstFreeCell` which lie in the nursery. -/
def Covered (free : List Bool) : Prop :=
  ∃ fuel g, H.collectGen0 fuel = some g ∧
    (∀ c, H.Live c → ∀ s ∈ (H.tree c).toList,
      g.contents s = (H.contents s).map GcCell.gcEvacuate ∧
        ∀ cell, g.contents s = some cell → cell.nurseryFree) ∧
    true ∉ free.take g.taken ∧ ∀ p ∈ g.walked, p.2 = H.contextRoot p.1

/-- The symbol is one of a context that is met. -/
def MetSymbol (s : Nat) : Prop := ∃ d, Met H.held H.starts d ∧ s ∈ (H.tree d).toList

/-- In a context that is met the cells in the nursery hang together from the symbol; in
the other live contexts there are none. -/
def Hangs : Prop :=
  ∀ s, H.LiveSymbol s → ∀ cell, H.contents s = some cell →
    (H.MetSymbol s → cell.hangs) ∧ (¬H.MetSymbol s → cell.nurseryFree)

variable {H}

section Collection

variable {c fuel : Nat} {g g' : GcState} {done : Finset Nat} {table : List Nat}
  {entered₀ entered : List (Nat × Option Nat)}

theorem walkContext_eq {root : Nat} (hlinks : ∀ y, linkAt g.contents y = linkAt H.contents y)
    (hroot : H.contextRoot c = some root) :
    H.walkContext fuel c g =
      if root ≠ nilSym then gcWalkSymbolTree H.symbols fuel root (g.visit c root)
      else some (g.visit c root) := by
  obtain ⟨⟨d, aux⟩, hlink, hroot⟩ := Option.bind_eq_some_iff.1 hroot
  obtain rfl : aux = some root := hroot
  rw [GcHeap.walkContext, hlinks c, hlink]

theorem holdsContext_of_run (hlinks : ∀ y, linkAt g.contents y = linkAt H.contents y)
    (h : H.walkContext fuel c g = some g') : H.HoldsContext c := by
  unfold GcHeap.walkContext at h
  split at h
  next d aux hlink => exact ⟨aux, by rw [GcHeap.contextRoot, ← hlinks c, hlink]; rfl⟩
  · cases h

theorem extends_of_run (h : H.walkContext fuel c g = some g') : g.Extends g' := by
  unfold GcHeap.walkContext at h
  split at h
  · dsimp only at h
    split_ifs at h
    · exact (GcState.Extends.visit ..).trans (.walkSymbolTree h)
    · cases h
      exact .visit ..
  · cases h

/-- A context entered by a start. -/
theorem exists_run_context (hsettles : H.Settles) (hc : H.Live c) (hholds : H.HoldsContext c)
    (hg : H.At g done table entered₀) {table' : List Nat}
    (hwalk : H.Walks (record maxContexts table c) (H.held c) table' entered) :
    ∃ fuel g', H.walkContext fuel c g = some g' ∧
      H.At g' (done ∪ (H.tree c).toList.toFinset ∪ H.symbolsOf entered) table'
        (entered₀ ++ (c, H.contextRoot c) :: entered) := by
  obtain ⟨root, hroot⟩ := hholds
  have hlinked := H.linked hc
  rw [hroot, Option.getD_some] at hlinked
  obtain ⟨fuel, g', hrun, hg'⟩ := exists_run hsettles _ hlinked (liveSymbol_of_mem hc) le_rfl
    (hg.visit c root) hwalk
  refine ⟨fuel, g', ?_, by simpa [hroot, List.append_assoc] using hg'⟩
  rw [walkContext_eq hg.linkAt hroot]
  exact enters_of_run hrun

theorem walks_of_run_context (hc : H.Live c)
    (hlinks : ∀ y, linkAt g.contents y = linkAt H.contents y) (hseen : c ∉ g.visitedContexts)
    (hrun : H.walkContext fuel c g = some g')
    (hroots : ∀ p ∈ g'.walked, p.2 = H.contextRoot p.1) :
    ∃ entered, H.Walks g.visitedContexts [(c, H.contextRoot c)] g'.visitedContexts entered := by
  obtain ⟨root, hroot⟩ := holdsContext_of_run hlinks hrun
  rw [walkContext_eq hlinks hroot] at hrun
  obtain ⟨entered, hwalk⟩ := walks_of_run (g := g.visit c root)
    (by simpa [hroot] using H.linked hc) (liveSymbol_of_mem hc) hlinks (run_of_enters hrun) hroots
  exact ⟨_, .enter hseen rfl hwalk .nil⟩

theorem walkContext_mono {k : Nat} (h : H.walkContext fuel c g = some g') (hk : fuel ≤ k) :
    H.walkContext k c g = some g' := by
  unfold GcHeap.walkContext at h ⊢
  split at h
  · dsimp only at h ⊢
    split_ifs at h ⊢
    · exact gcWalkSymbolTree_mono h hk
    · exact h
  · cases h

theorem collectGen0_mono {k : Nat} (h : H.collectGen0 fuel = some g) (hk : fuel ≤ k) :
    H.collectGen0 k = some g := by
  obtain ⟨g₁, hmain, hcurrent⟩ := Option.bind_eq_some_iff.1 h
  rw [GcHeap.collectGen0, walkContext_mono hmain hk, Option.bind_some]
  split_ifs at hcurrent ⊢
  · exact hcurrent
  · exact walkContext_mono hcurrent hk

/-- A collection that enters the contexts by their roots is a walk from its starts. -/
theorem exists_walk_of_run (hrun : H.collectGen0 fuel = some g)
    (hroots : ∀ p ∈ g.walked, p.2 = H.contextRoot p.1) :
    H.HoldsContext H.mainContext ∧ H.HoldsContext H.currentContext ∧
      ∃ table entered, H.Walks [] H.starts table entered := by
  obtain ⟨g₁, hmain, hcurrent⟩ := Option.bind_eq_some_iff.1 hrun
  have hholds := holdsContext_of_run (fun _ => rfl) hmain
  have hlinks₁ := (extends_of_run hmain).links
  have hstep : g₁.Extends g := by
    split_ifs at hcurrent
    · cases hcurrent
      exact .rfl
    · exact extends_of_run hcurrent
  obtain ⟨entered₁, hwalk₁⟩ := walks_of_run_context .main (fun _ => rfl) List.not_mem_nil hmain
    fun p hp => hroots p (hstep.walked.subset hp)
  split_ifs at hcurrent with hseen
  · refine ⟨hholds, ?_, _, _, hwalk₁.append (.skip hseen .nil)⟩
    -- it was entered by a cell that a symbol holds, or is MAIN
    rcases hwalk₁.mem_table hseen with hmem | ⟨p, hp, hcontext⟩
    · cases hmem
    · have hsome : ∃ aux, p.2 = some aux := by
        refine hwalk₁.all_of (P := fun p => ∃ aux, p.2 = some aux) ?_ ?_ p hp
        · exact fun d p hp => root_of_mem_linksOf _ hp
        · intro p hp
          obtain rfl := List.mem_singleton.1 hp
          exact hholds
      obtain ⟨aux, haux⟩ := hsome
      exact ⟨aux, by rw [← haux, hwalk₁.root_of_mem p hp, hcontext]⟩
  · obtain ⟨entered₂, hwalk₂⟩ :=
      walks_of_run_context .current hlinks₁ hseen hcurrent hroots
    exact ⟨hholds, holdsContext_of_run hlinks₁ hcurrent, _, _, hwalk₁.append hwalk₂⟩

/-- A walk from the starts is made by the collection, which evacuates the symbols of the
contexts it enters. -/
theorem exists_run_of_walk (hsettles : H.Settles) (hmain : H.HoldsContext H.mainContext)
    (hcurrent : H.HoldsContext H.currentContext) (hwalk : H.Walks [] H.starts table entered) :
    ∃ fuel g, H.collectGen0 fuel = some g ∧ H.At g (H.symbolsOf entered) table entered := by
  have hstart : H.At ⟨H.contents, [], [], 0⟩ ∅ [] [] := ⟨by simp, rfl, rfl, rfl⟩
  cases hwalk with
  | skip hseen hrest => cases hseen
  | @enter _ table₁ _ _ _ entered₁ entered₂ hseen hroot hheld hrest =>
      obtain ⟨fuel₁, g₁, hrun₁, hg₁⟩ := exists_run_context hsettles .main hmain hstart hheld
      cases hrest with
      | skip hseen hrest =>
          cases hrest
          refine ⟨fuel₁, g₁, ?_, by simpa using hg₁⟩
          rw [GcHeap.collectGen0, hrun₁, Option.bind_some,
            if_neg (not_not_intro (hg₁.visited ▸ hseen))]
      | enter hseen hroot hheld₂ hrest =>
          cases hrest
          obtain ⟨fuel₂, g₂, hrun₂, hg₂⟩ :=
            exists_run_context hsettles .current hcurrent hg₁ hheld₂
          refine ⟨fuel₁ + fuel₂, g₂, ?_, by simpa [Finset.union_assoc] using hg₂⟩
          rw [GcHeap.collectGen0, walkContext_mono hrun₁ (by omega), Option.bind_some,
            if_pos (hg₁.visited ▸ hseen), walkContext_mono hrun₂ (by omega)]

end Collection

theorem mem_symbolsOf_iff {entered : List (Nat × Option Nat)}
    (h : ∀ d, (∃ link ∈ entered, link.1 = d) ↔ Met H.held H.starts d) (s : Nat) :
    s ∈ H.symbolsOf entered ↔ H.MetSymbol s := by
  rw [mem_symbolsOf, MetSymbol]
  constructor
  · rintro ⟨p, hp, hs⟩
    exact ⟨p.1, (h p.1).1 ⟨p, hp, rfl⟩, hs⟩
  · rintro ⟨d, hd, hs⟩
    obtain ⟨p, hp, rfl⟩ := (h d).2 hd
    exact ⟨p, hp, hs⟩

/-- The live contexts are finitely many, so that a walk can be told by its links. -/
theorem walks_iff_fits :
    (∃ table entered, H.Walks [] H.starts table entered) ↔
      ∃ first, Fits maxContexts H.held H.contextRoot H.starts first := by
  classical
  have hall : ∀ d, H.Live d → d ∈ H.contexts.filter (H.Live ·) :=
    fun d hd => List.mem_filter.2 ⟨H.finite hd, decide_eq_true hd⟩
  refine walk_iff_fits (fun d hd link hlink => hall _ ?_) fun link hlink => hall _ ?_
  · have hlive := of_decide_eq_true (List.mem_filter.1 hd).2
    exact live_of_link (liveSymbol_of_mem hlive) link hlink
  · exact live_of_met (.link hlink)

theorem Hangs.settles (h : H.Hangs) : H.Settles := by
  intro s hs cell hcell
  by_cases hmet : H.MetSymbol s
  · refine GcCell.gen0_of_nurseryFree ?_
    rw [GcCell.nurseryFree_gcEvacuate]
    exact (h s hs cell hcell).1 hmet
  · have hgen0 := GcCell.gen0_of_nurseryFree ((h s hs cell hcell).2 hmet)
    rw [GcCell.gcEvacuate_of_gen0 hgen0]
    exact hgen0

/-- The cells that the collection takes for the symbols of these contexts. -/
def copies (H : ContextHeap) (first : List (Nat × Option Nat)) : Nat :=
  takenFor H.contents (H.symbolsOf first)

/-- The symbols of live contexts are covered exactly if

* MAIN and the current context hold a context cell, the first 256 contexts that are met
  hold their current root where they are met, the others wherever a symbol holds them, and
  no way among the others comes back;
* the cells in the nursery hang together from a symbol of a context that is met;
* no cell that is taken for their copies lies in the nursery. -/
theorem covered_iff_fits (free : List Bool) :
    H.Covered free ↔
      ∃ first, Fits maxContexts H.held H.contextRoot H.starts first ∧
        H.HoldsContext H.mainContext ∧ H.HoldsContext H.currentContext ∧ H.Hangs ∧
        true ∉ free.take (H.copies first) := by
  constructor
  · rintro ⟨fuel, g, hrun, hcovered, hfree, hroots⟩
    have hsettles : H.Settles := by
      rintro s ⟨c, hc, hs⟩ cell hcell
      obtain ⟨hmoved, hnursery⟩ := hcovered c hc s hs
      rw [hcell, Option.map_some] at hmoved
      exact GcCell.gen0_of_nurseryFree (hnursery _ hmoved)
    obtain ⟨hmain, hcurrent, table, entered, hwalk⟩ := exists_walk_of_run hrun hroots
    obtain ⟨k, g', hrun', hg⟩ := exists_run_of_walk hsettles hmain hcurrent hwalk
    obtain rfl : g = g' := by
      have hsame := collectGen0_mono hrun (Nat.le_add_right fuel k)
      rw [collectGen0_mono hrun' (Nat.le_add_left k fuel)] at hsame
      exact (Option.some.inj hsame).symm
    obtain ⟨first, hfits⟩ := walks_iff_fits.1 ⟨table, entered, hwalk⟩
    have hmet := mem_symbolsOf_iff hwalk.exists_mem_iff
    have hsymbols : H.symbolsOf entered = H.symbolsOf first :=
      Finset.ext fun s => (hmet s).trans (mem_symbolsOf_iff hfits.meets.exists_mem_iff s).symm
    refine ⟨first, hfits, hmain, hcurrent, ?_, by rwa [copies, ← hsymbols, ← hg.taken]⟩
    rintro s ⟨c, hc, hs⟩ cell hcell
    obtain ⟨-, hnursery⟩ := hcovered c hc s hs
    constructor
    · intro hin
      rw [← GcCell.nurseryFree_gcEvacuate]
      exact hnursery _ (by rw [hg.contents, evacuated, if_pos ((hmet s).2 hin), hcell]; rfl)
    · intro hout
      exact hnursery _ (by rw [hg.contents, evacuated, if_neg (mt (hmet s).1 hout), hcell])
  · rintro ⟨first, hfits, hmain, hcurrent, hhangs, hfree⟩
    obtain ⟨table, entered, hwalk⟩ := walks_iff_fits.2 ⟨first, hfits⟩
    obtain ⟨fuel, g, hrun, hg⟩ := exists_run_of_walk hhangs.settles hmain hcurrent hwalk
    have hmet := mem_symbolsOf_iff hwalk.exists_mem_iff
    have hsymbols : H.symbolsOf entered = H.symbolsOf first :=
      Finset.ext fun s => (hmet s).trans (mem_symbolsOf_iff hfits.meets.exists_mem_iff s).symm
    refine ⟨fuel, g, hrun, fun c hc s hs => ?_, ?_, hg.walked ▸ hwalk.root_of_mem⟩
    · cases hcell : H.contents s with
      | none => simp [hg.contents, evacuated, hcell]
      | some cell =>
          obtain ⟨hin, hout⟩ := hhangs s ⟨c, hc, hs⟩ cell hcell
          have hfree : cell.gcEvacuate.nurseryFree := by
            rw [GcCell.nurseryFree_gcEvacuate]
            by_cases hm : H.MetSymbol s
            · exact hin hm
            · rw [← GcCell.nurseryFree_of_gen0 (GcCell.gen0_of_nurseryFree (hout hm))]
              exact hout hm
          have hsame : g.contents s = some cell.gcEvacuate := by
            rw [hg.contents, evacuated, hcell, Option.map_some]
            split_ifs with hm
            · rfl
            · have hgen0 := GcCell.gen0_of_nurseryFree (hout (mt (hmet s).2 hm))
              rw [GcCell.gcEvacuate_of_gen0 hgen0]
          refine ⟨hsame, fun cell' hcell' => ?_⟩
          rw [hsame] at hcell'
          cases hcell'
          exact hfree
    · rwa [hg.taken, hsymbols]

/-- `(set 'Aaa Foo)` copies the cell of a context with the one symbol `a`; then `b`
and `c` come in, and the tree has a new root. -/
def copiedBefore : GcHeap where
  symbols :=
    { nodes := fun x => match x with
        | 1 => ⟨⟨[77, 65, 73, 78], 0, by decide⟩, .red, some 3, 0, 0⟩
        | 2 => ⟨⟨[65, 97, 97], 0, by decide⟩, .red, some 3, 0, 0⟩
        | 3 => ⟨⟨[70, 111, 111], 0, by decide⟩, .black, none, 2, 1⟩
        | 4 => ⟨⟨[97], 0, by decide⟩, .red, some 5, 0, 0⟩
        | 5 => ⟨⟨[98], 0, by decide⟩, .black, none, 4, 6⟩
        | 6 => ⟨⟨[99], 0, by decide⟩, .red, some 5, 0, 0⟩
        | _ => ⟨⟨[], 0, by decide⟩, .black, none, 0, 0⟩
      root := some 3
      fresh := 7 }
  contents := fun x => match x with
    | 1 => some (.context false 1 3)
    | 2 => some (.context true 3 4)
    | 3 => some (.context false 3 5)
    | 6 => some (.atom true)
    | _ => none
  mainContext := 1
  currentContext := 1

def copiedBeforeTree (c : Nat) : ColoredTree Nat :=
  match c with
  | 1 => .node .black (.node .red .nil 2 .nil) 3 (.node .red .nil 1 .nil)
  | 3 => .node .black (.node .red .nil 4 .nil) 5 (.node .red .nil 6 .nil)
  | _ => .nil

theorem copiedBefore_live {c : Nat} (h : copiedBefore.Live copiedBeforeTree c) :
    c = 1 ∨ c = 3 := by
  induction h with
  | main => exact .inl rfl
  | current => exact .inl rfl
  | @step c d s cell _ hs hcell hd ih =>
      have hsymbol : s = 1 ∨ s = 2 ∨ s = 3 ∨ s = 4 ∨ s = 5 ∨ s = 6 := by
        rcases ih with rfl | rfl
        · simp only [copiedBeforeTree, ColoredTree.toList, List.mem_append, List.mem_cons,
            List.not_mem_nil] at hs
          tauto
        · simp only [copiedBeforeTree, ColoredTree.toList, List.mem_append, List.mem_cons,
            List.not_mem_nil] at hs
          tauto
      rcases hsymbol with rfl | rfl | rfl | rfl | rfl | rfl <;> cases hcell
      · exact .inl (List.mem_singleton.1 hd)
      · exact .inr (List.mem_singleton.1 hd)
      · exact .inr (List.mem_singleton.1 hd)
      · cases hd

def copiedBeforeHeap : ContextHeap where
  toGcHeap := copiedBefore
  tree := copiedBeforeTree
  contexts := [1, 3]
  finite h := by
    rcases copiedBefore_live h with rfl | rfl <;> decide
  nonNil h := by
    rcases copiedBefore_live h with rfl | rfl <;> decide
  linked h := by
    rcases copiedBefore_live h with rfl | rfl <;>
      simp [SymbolTree.Linked, SymbolTree.color, SymbolTree.parent, SymbolTree.child,
        SymbolNode.child, GcHeap.contextRoot, linkAt, GcCell.link, copiedBefore,
        copiedBeforeTree]

/-- The copy is met first: `b` and `c` are missed, and `c` is left in the nursery. -/
theorem copied_context_missed :
    ¬copiedBeforeHeap.Covered [] ∧ ∃ g, copiedBeforeHeap.collectGen0 9 = some g ∧
      (g.contents 6).map GcCell.gen0 = some true := by
  refine ⟨?_, _, rfl, rfl⟩
  rintro ⟨fuel, g, hrun, hcovered, -⟩
  have hend := collectGen0_mono hrun (Nat.le_add_right fuel 9)
  have hnine : copiedBeforeHeap.collectGen0 9 = some _ := rfl
  rw [collectGen0_mono hnine (Nat.le_add_left 9 fuel)] at hend
  cases hend
  have hfoo : copiedBeforeHeap.contents 3 = some (.context false 3 5) := rfl
  have hlive : copiedBeforeHeap.Live 3 := .step .main (by decide) hfoo (by decide)
  exact absurd ((hcovered 3 hlive 6 (by decide)).2 _ rfl) (by decide)

end ContextHeap

end NewLispNeo
