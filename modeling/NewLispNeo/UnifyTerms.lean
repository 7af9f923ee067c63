/-
`unify` on numbers, strings, symbols and lists follows unification of terms, as long as
the atoms that meet are compared as they are and no number is the address of a variable.
-/
import NewLispNeo.CompareOrder
import NewLispNeo.UnificationRuns
import NewLispNeo.Unify

namespace NewLispNeo

namespace Unify

open Unification LabelTree

section Terms

variable (w : World)

mutual

/-- A cell as a term: what decides between two atoms is their label. -/
def termOf : Cell → Term CellLabel Symbol
  | .symbol s =>
      match nameType s.name with
      | .any => .any
      | .var => .var s
      | _ => .const (labelOf w.rt (.symbol s))
  | .expression cells => .list (termsOf cells)
  | cell => .const (labelOf w.rt cell)

def termsOf : List Cell → List (Term CellLabel Symbol)
  | [] => []
  | cell :: cells => termOf cell :: termsOf cells

end

mutual

/-- The cells that terms are made of. -/
def isTerm : Cell → Bool
  | .nil | .true_ | .long _ | .bigint _ | .float _ | .string _ | .symbol _ => true
  | .expression cells => areTerms cells
  | _ => false

def areTerms : List Cell → Bool
  | [] => true
  | cell :: cells => isTerm cell && areTerms cells

end

/-- The symbol a binding is for. -/
def boundSymbol : Cell → Symbol
  | .symbol s => s
  | _ => nilSymbol

/-- The sets as working set and bindings. -/
def stateOf (s : Sets) : State CellLabel Symbol where
  ws := s.ws.map fun pair => (termOf w pair.1, termOf w pair.2)
  mgu := s.mgu.map fun pair => (boundSymbol pair.1, termOf w pair.2)

end Terms

/-- The sets hold terms, and the bindings are of variables. -/
structure SetsIn (s : Sets) : Prop where
  ws : ∀ pair ∈ s.ws, isTerm pair.1 = true ∧ isTerm pair.2 = true
  mgu : ∀ pair ∈ s.mgu, (∃ x, pair.1 = .symbol x ∧ nameType x.name = .var) ∧
    isTerm pair.2 = true

/-- No atom of the cell, and no other cell of the pairs in the sets, has the address of the
variable for its contents. -/
structure OwnAddress (w : World) (x : Symbol) (cell : Cell) (s : Sets) : Prop where
  term : ∀ c ∈ atomsOf cell, sameContents w (.symbol x) c = false
  sets : ∀ pair ∈ s.ws ++ s.mgu, ∀ c ∈ [pair.1, pair.2], c ≠ .symbol x →
    sameContents w (.symbol x) c = false

/-- What a pass of the loop relies on: two atoms are the same cells when they have the same
label, and a variable that is bound has its address to itself. -/
structure Direct (w : World) (left right : Cell) (s : Sets) : Prop where
  atoms : unifyGetType w left = .value .atom → unifyGetType w right = .value .atom →
    sameCells w left right = .value (decide (labelOf w.rt left = labelOf w.rt right))
  varLeft : ∀ x, left = .symbol x → nameType x.name = .var →
    unifyGetType w right ≠ .value .any → ¬ Term.Occurs x (termOf w right) → OwnAddress w x right s
  varRight : ∀ x, right = .symbol x → nameType x.name = .var → unifyGetType w left ≠ .value .any →
    unifyGetType w left ≠ .value .var → ¬ Term.Occurs x (termOf w left) → OwnAddress w x left s

section Atoms

variable {w : World} {cell : Cell} {x : Symbol}

/-- The kinds of terms. -/
inductive TermKind (w : World) : Cell → Prop
  | any {s : Symbol} (h : nameType s.name = .any) : TermKind w (.symbol s)
  | var {s : Symbol} (h : nameType s.name = .var) : TermKind w (.symbol s)
  | list {cells : List Cell} : TermKind w (.expression cells)
  | atom {cell : Cell} (hscalar : isScalar cell = true)
      (htype : unifyGetType w cell = .value .atom)
      (hterm : termOf w cell = .const (labelOf w.rt cell)) : TermKind w cell

theorem nameType_cases (name : String) :
    nameType name = .any ∨ nameType name = .var ∨ nameType name = .atom := by
  unfold nameType
  split
  · exact .inl rfl
  · split
    · split
      · exact .inr (.inl rfl)
      · exact .inr (.inr rfl)
    · exact .inr (.inr rfl)

attribute [local simp] termOf isTerm in
theorem termKind (h : isTerm cell = true) : TermKind w cell := by
  cases cell with
  | symbol s =>
      rcases nameType_cases s.name with hname | hname | hname
      · exact .any hname
      · exact .var hname
      · exact .atom rfl (by rw [unifyGetType, hname]) (by rw [termOf, hname])
  | expression cells => exact .list
  | nil | true_ | long _ | bigint _ | float _ | string _ => exact .atom rfl rfl (by simp)
  | _ => simp at h

theorem termOf_any {s : Symbol} (h : nameType s.name = .any) : termOf w (.symbol s) = .any := by
  rw [termOf, h]

theorem termOf_var {s : Symbol} (h : nameType s.name = .var) :
    termOf w (.symbol s) = .var s := by
  rw [termOf, h]

theorem areTerms_cons (cell : Cell) (cells : List Cell) :
    areTerms (cell :: cells) = (isTerm cell && areTerms cells) := rfl

theorem areTerms_mem {cells : List Cell} (h : areTerms cells = true) (hcell : cell ∈ cells) :
    isTerm cell = true := by
  induction cells with
  | nil => contradiction
  | cons c cells ih =>
      rw [areTerms_cons, Bool.and_eq_true] at h
      rcases List.mem_cons.1 hcell with rfl | hcell
      · exact h.1
      · exact ih h.2 hcell

theorem areTerms_of_forall {cells : List Cell} (h : ∀ cell ∈ cells, isTerm cell = true) :
    areTerms cells = true := by
  induction cells with
  | nil => rfl
  | cons c cells ih =>
      rw [areTerms_cons, h c List.mem_cons_self, ih fun d hd => h d (List.mem_cons_of_mem _ hd)]
      rfl

theorem occurs_termOf_scalar (hvar : nameType x.name = .var) (hscalar : isScalar cell = true) :
    Term.Occurs x (termOf w cell) ↔ cell = .symbol x := by
  cases cell with
  | symbol s =>
      by_cases hs : nameType s.name = .var
      · rw [termOf_var hs, Term.Occurs, Cell.symbol.injEq, eq_comm]
      · constructor
        · intro h
          rcases nameType_cases s.name with hname | hname | hname
          · rw [termOf, hname] at h
            simp [Term.Occurs] at h
          · exact absurd hname hs
          · rw [termOf, hname] at h
            simp [Term.Occurs] at h
        · intro h
          exact absurd (Cell.symbol.inj h ▸ hvar) hs
  | nil | true_ | long _ | bigint _ | float _ | string _ | context _ =>
      simp [termOf, Term.Occurs]
  | _ => contradiction

mutual

/-- A variable occurs in a term when it is one of the atoms. -/
theorem occurs_iff_mem (hvar : nameType x.name = .var) : ∀ cell : Cell, isTerm cell = true →
    (Term.Occurs x (termOf w cell) ↔ .symbol x ∈ atomsOf cell)
  | .expression cells, h => by
      rw [termOf, Term.Occurs, atomsOf]
      exact occursAll_iff_mem hvar cells fun c hc => areTerms_mem h hc
  | .nil, _ | .true_, _ | .long _, _ | .bigint _, _ | .float _, _ | .string _, _
  | .symbol _, _ => by
      rw [occurs_termOf_scalar hvar rfl, atomsOf_atom rfl, List.mem_singleton, eq_comm]
  | .context _, h | .primitive _, h | .quote _, h | .lambda _ _, h | .fexpr _, h | .array _, h
  | .dynSymbol _ _, h => absurd h (by simp [isTerm])

theorem occursAll_iff_mem (hvar : nameType x.name = .var) : ∀ cells : List Cell,
    (∀ cell ∈ cells, isTerm cell = true) →
    (Term.OccursAll x (termsOf w cells) ↔ .symbol x ∈ atomsOfAll cells)
  | [], _ => by simp [termsOf, Term.OccursAll, atomsOfAll]
  | cell :: cells, h => by
      rw [termsOf, Term.OccursAll, atomsOfAll, List.mem_append,
        occurs_iff_mem hvar cell (h cell List.mem_cons_self),
        occursAll_iff_mem hvar cells fun c hc => h c (List.mem_cons_of_mem _ hc)]

end

theorem sameContents_expression (x : Symbol) (cells : List Cell) :
    sameContents w (.symbol x) (.expression cells) = false := by
  cases cells <;> simp [sameContents, contentsOf]

mutual

/-- `occurCheck` looks for the address of the variable at all atoms. -/
theorem occurCheck_spec (w : World) (x : Symbol) : ∀ cell : Cell, isTerm cell = true →
    occurCheck w (.symbol x) cell = .value ((atomsOf cell).any (sameContents w (.symbol x)))
  | .expression cells, h => by
      rw [occurCheck, atomsOf]
      exact occurCheckList_spec w x cells fun c hc => areTerms_mem h hc
  | .nil, _ | .true_, _ | .long _, _ | .bigint _, _ | .float _, _ | .string _, _
  | .symbol _, _ => by
      simp [occurCheck, atomsOf]
  | .context _, h | .primitive _, h | .quote _, h | .lambda _ _, h | .fexpr _, h | .array _, h
  | .dynSymbol _ _, h => absurd h (by simp [isTerm])

theorem occurCheckList_spec (w : World) (x : Symbol) : ∀ cells : List Cell,
    (∀ cell ∈ cells, isTerm cell = true) →
    occurCheckList w (.symbol x) cells =
      .value ((atomsOfAll cells).any (sameContents w (.symbol x)))
  | [], _ => by rw [occurCheckList, atomsOfAll, List.any_nil]
  | cell :: cells, h => by
      have hcell := h cell List.mem_cons_self
      have hfirst := occurCheck_spec w x cell hcell
      have hrest := occurCheckList_spec w x cells fun c hc => h c (List.mem_cons_of_mem _ hc)
      rw [occurCheckList, atomsOfAll, List.any_append]
      cases cell with
      | expression elements =>
          have henvelope : isEnvelope (.expression elements) = true := rfl
          rw [sameContents_expression, if_neg Bool.false_ne_true, if_pos henvelope, hfirst, hrest,
            Outcome.value_bind]
          cases (atomsOf (.expression elements)).any (sameContents w (.symbol x)) <;> rfl
      | nil | true_ | long _ | bigint _ | float _ | string _ | symbol _ =>
          rw [hrest]
          simp only [isEnvelope, Bool.false_eq_true, if_false, atomsOf, List.any_cons,
            List.any_nil, Bool.or_false]
          split
          · rename_i hsame
            rw [hsame, Bool.true_or]
          · rename_i hsame
            rw [Bool.not_eq_true] at hsame
            rw [hsame, Bool.false_or]
      | _ => exact absurd hcell (by simp [isTerm])

end

/-- `occurCheck` finds a variable that occurs. -/
theorem occurCheck_of_occurs (hvar : nameType x.name = .var) (h : isTerm cell = true)
    (hoccurs : Term.Occurs x (termOf w cell)) : occurCheck w (.symbol x) cell = .value true := by
  rw [occurCheck_spec w x cell h]
  congr 1
  refine List.any_eq_true.2 ⟨_, (occurs_iff_mem hvar cell h).1 hoccurs, ?_⟩
  simp [sameContents, contentsOf]

/-- `occurCheck` finds no variable with an address of its own. -/
theorem occurCheck_of_own (h : isTerm cell = true)
    (hown : ∀ c ∈ atomsOf cell, sameContents w (.symbol x) c = false) :
    occurCheck w (.symbol x) cell = .value false := by
  rw [occurCheck_spec w x cell h]
  congr 1
  exact List.any_eq_false.2 fun c hc => by rw [hown c hc]; exact Bool.false_ne_true

end Atoms

section Substitution

variable {w : World} {cell expr : Cell} {x : Symbol}

mutual

/-- `expand` on a term substitutes the variable. -/
theorem expand_spec (hvar : nameType x.name = .var) (hexpr : isTerm expr = true) :
    ∀ cell : Cell, isTerm cell = true → isTerm (expand x expr cell) = true ∧
      termOf w (expand x expr cell) = (termOf w cell).subst (Term.single x (termOf w expr))
  | .expression cells, h => by
      obtain ⟨hin, hterms⟩ := expandList_spec hvar hexpr cells fun c hc => areTerms_mem h hc
      rw [expand]
      refine ⟨?_, ?_⟩
      · rw [isTerm]
        exact areTerms_of_forall hin
      · rw [termOf, termOf, Term.subst, hterms]
  | .symbol s, h => by
      rw [expand]
      by_cases hs : s = x
      · subst hs
        rw [if_pos rfl, termOf_var hvar, Term.subst, Term.single, if_pos rfl]
        exact ⟨hexpr, rfl⟩
      · rw [if_neg hs]
        refine ⟨h, ?_⟩
        rcases nameType_cases s.name with hname | hname | hname
        · rw [termOf_any hname, Term.subst]
        · rw [termOf_var hname, Term.subst, Term.single, if_neg hs]
        · rw [termOf, hname, Term.subst]
  | .nil, h | .true_, h | .long _, h | .bigint _, h | .float _, h | .string _, h => by
      simp only [expand, termOf, Term.subst]
      exact ⟨h, trivial⟩
  | .context _, h | .primitive _, h | .quote _, h | .lambda _ _, h | .fexpr _, h | .array _, h
  | .dynSymbol _ _, h => absurd h (by simp [isTerm])

theorem expandList_spec (hvar : nameType x.name = .var) (hexpr : isTerm expr = true) :
    ∀ cells : List Cell, (∀ cell ∈ cells, isTerm cell = true) →
      (∀ cell ∈ expandList x expr cells, isTerm cell = true) ∧
      termsOf w (expandList x expr cells) =
        Term.substAll (Term.single x (termOf w expr)) (termsOf w cells)
  | [], _ => by simp [expandList, termsOf, Term.substAll]
  | cell :: cells, h => by
      obtain ⟨hin, hterm⟩ := expand_spec hvar hexpr cell (h cell List.mem_cons_self)
      obtain ⟨hins, hterms⟩ := expandList_spec hvar hexpr cells
        fun c hc => h c (List.mem_cons_of_mem _ hc)
      rw [expandList, termsOf, termsOf, Term.substAll, hterm, hterms]
      refine ⟨?_, rfl⟩
      rintro c (_ | ⟨_, hc⟩)
      · exact hin
      · exact hins c hc

end

theorem subsym_eq_expand (hcell : isTerm cell = true)
    (hown : cell ≠ .symbol x → sameContents w (.symbol x) cell = false) :
    subsym w expr x cell = expand x expr cell := by
  by_cases hlist : (isList cell || isQuote cell) = true
  · rw [subsym, if_pos hlist]
  · rw [subsym, if_neg hlist]
    cases cell with
    | symbol s =>
        by_cases hs : s = x
        · subst hs
          rw [expand, if_pos rfl, if_pos (by simp [sameContents, contentsOf])]
        · rw [expand, if_neg hs, hown fun h => hs (Cell.symbol.inj h), if_neg Bool.false_ne_true]
    | expression cells => exact absurd rfl hlist
    | nil | true_ | long _ | bigint _ | float _ | string _ =>
        rw [hown (by simp), if_neg Bool.false_ne_true]
        simp [expand]
    | _ => exact absurd hcell (by simp [isTerm])

theorem subsym_spec (hvar : nameType x.name = .var) (hexpr : isTerm expr = true)
    (hcell : isTerm cell = true)
    (hown : cell ≠ .symbol x → sameContents w (.symbol x) cell = false) :
    isTerm (subsym w expr x cell) = true ∧
      termOf w (subsym w expr x cell) = (termOf w cell).subst (Term.single x (termOf w expr)) := by
  rw [subsym_eq_expand hcell hown]
  exact expand_spec hvar hexpr cell hcell

/-- A variable that may be bound goes with its term into the bindings. -/
theorem bindVariable_spec (hvar : nameType x.name = .var) (hexpr : isTerm expr = true) {s : Sets}
    (hs : SetsIn s) (hown : OwnAddress w x expr s)
    (hfree : x ∉ BindingList.keys (stateOf w s).mgu) :
    ∃ s', bindVariable w (.symbol x) expr s = .value s' ∧ SetsIn s' ∧
      stateOf w s' = State.bind x (termOf w expr) (stateOf w s) := by
  have hws : ∀ pair ∈ s.ws, ∀ c ∈ [pair.1, pair.2],
      c ≠ .symbol x → sameContents w (.symbol x) c = false :=
    fun pair hpair => hown.sets pair (List.mem_append_left _ hpair)
  have hmgu : ∀ pair ∈ s.mgu, ∀ c ∈ [pair.1, pair.2],
      c ≠ .symbol x → sameContents w (.symbol x) c = false :=
    fun pair hpair => hown.sets pair (List.mem_append_right _ hpair)
  have hkey : ∀ pair ∈ s.mgu, subsym w expr x pair.1 = pair.1 := by
    intro pair hpair
    obtain ⟨⟨y, hy, hyvar⟩, -⟩ := hs.mgu pair hpair
    have hne : y ≠ x := by
      rintro rfl
      apply hfree
      simp only [BindingList.keys, stateOf, List.map_map, List.mem_map]
      exact ⟨pair, hpair, by simp [hy, boundSymbol]⟩
    rw [subsym_eq_expand (by rw [hy, isTerm]) (hmgu pair hpair _ List.mem_cons_self), hy, expand,
      if_neg hne]
  have hspec : ∀ {c : Cell}, isTerm c = true →
      (c ≠ .symbol x → sameContents w (.symbol x) c = false) →
      isTerm (subsym w expr x c) = true ∧
        termOf w (subsym w expr x c) = (termOf w c).subst (Term.single x (termOf w expr)) :=
    fun hc hownc => subsym_spec hvar hexpr hc hownc
  have hleft := fun q hq => hspec (hs.ws q hq).1 (hws q hq _ List.mem_cons_self)
  have hright := fun q hq => hspec (hs.ws q hq).2 (hws q hq _ (by simp))
  have hbound := fun q hq => hspec (hs.mgu q hq).2 (hmgu q hq _ (by simp))
  refine ⟨_, rfl, ⟨?_, ?_⟩, ?_⟩
  · intro pair hpair
    obtain ⟨q, hq, rfl⟩ := List.mem_map.1 hpair
    exact ⟨(hleft q hq).1, (hright q hq).1⟩
  · intro pair hpair
    rcases List.mem_cons.1 hpair with rfl | hpair
    · exact ⟨⟨x, rfl, hvar⟩, hexpr⟩
    · obtain ⟨q, hq, rfl⟩ := List.mem_map.1 hpair
      refine ⟨?_, (hbound q hq).1⟩
      rw [hkey q hq]
      exact (hs.mgu q hq).1
  · simp only [stateOf, State.bind, Sets.pushMgu, substitute, List.map_map, List.map_cons,
      boundSymbol]
    congr 1
    · apply List.map_congr_left
      intro q hq
      simp only [Function.comp, (hleft q hq).2, (hright q hq).2]
    · congr 1
      apply List.map_congr_left
      intro q hq
      simp only [Function.comp, hkey q hq, (hbound q hq).2]

end Substitution

section Pair

variable {w : World} {left right : Cell}

/-- An atom and a list with the same contents are `nil` and the empty list, and they are no
same cells. -/
theorem sameCells_scalar_list {cells : List Cell} (hls : isScalar left = true)
    (hsame : sameContents w left (.expression cells) = true) :
    sameCells w left (.expression cells) = .value false ∧
      sameCells w (.expression cells) left = .value false := by
  cases cells with
  | cons c cells =>
      simp only [sameContents, Bool.and_eq_true, decide_eq_true_eq] at hsame
      exact absurd hsame.2 hsame.1
  | nil =>
      cases left with
      | nil => simp [sameCells, compareCells, compareTypes, isFloat, isInt, isNil, isTrue]
      | true_ | long _ | bigint _ | float _ | string _ | symbol _ | context _ =>
          simp [sameContents, contentsOf] at hsame
      | _ => contradiction

theorem sameCells_nil : sameCells w (.expression []) (.expression []) = .value true := by
  simp [sameCells, compareCells, compareLists]

theorem sameCells_symbol (x : Symbol) : sameCells w (.symbol x) (.symbol x) = .value true := by
  have hsign : compareSymbols (.symbol x) (.symbol x) =
      sign (labelOf w.rt (.symbol x)) (labelOf w.rt (.symbol x)) := compareSymbols_sign x x
  rw [sameCells, compareCells, hsign, sign_self]
  rfl

theorem sameContents_lists {cells cells' : List Cell}
    (h : sameContents w (.expression cells) (.expression cells') = true) :
    cells = [] ∧ cells' = [] := by
  cases cells <;> cases cells' <;> simp [sameContents, contentsOf] at h ⊢

theorem length_termsOf (cells : List Cell) : (termsOf w cells).length = cells.length := by
  induction cells with
  | nil => rfl
  | cons c cells ih => rw [termsOf, List.length_cons, List.length_cons, ih]

theorem zip_termsOf (cells cells' : List Cell) : (termsOf w cells).zip (termsOf w cells') =
    (cells.zip cells').map fun pair => (termOf w pair.1, termOf w pair.2) := by
  induction cells generalizing cells' with
  | nil => simp [termsOf]
  | cons c cells ih =>
      cases cells' with
      | nil => simp [termsOf]
      | cons c' cells' => simp [termsOf, ih]

theorem unifyPair_any {t u : UnifyType} {s : Sets} (hl : unifyGetType w left = .value t)
    (hr : unifyGetType w right = .value u) (h : t = .any ∨ u = .any) :
    unifyPair w left right s = .value (some s) := by
  rw [unifyPair, hl, Outcome.value_bind, hr, Outcome.value_bind, if_pos h]

theorem unifyPair_same {t u : UnifyType} {s : Sets} {b : Bool}
    (hl : unifyGetType w left = .value t) (hr : unifyGetType w right = .value u)
    (hany : ¬ (t = .any ∨ u = .any))
    (hsame : (t = .atom ∧ u = .atom) ∨ sameContents w left right)
    (hcells : sameCells w left right = .value b) :
    unifyPair w left right s = .value (if b then some s else none) := by
  rw [unifyPair, hl, Outcome.value_bind, hr, Outcome.value_bind, if_neg hany, if_pos hsame,
    hcells, Outcome.value_bind]
  cases b <;> rfl

theorem unifyPair_terms {t u : UnifyType} {s : Sets} (hl : unifyGetType w left = .value t)
    (hr : unifyGetType w right = .value u) (hany : ¬ (t = .any ∨ u = .any))
    (hatom : ¬ (t = .atom ∧ u = .atom)) (hsame : ¬ sameContents w left right = true) :
    unifyPair w left right s = unifyTerms w t u left right s := by
  rw [unifyPair, hl, Outcome.value_bind, hr, Outcome.value_bind, if_neg hany,
    if_neg (not_or.2 ⟨hatom, hsame⟩)]

theorem canBind_var {sym expr : Cell} {b : Bool} (h : occurCheck w sym expr = .value b) :
    canBind w .var sym expr = .value !b := by
  rw [canBind, if_pos rfl, h]
  rfl

theorem canBind_other {t : UnifyType} (ht : t ≠ .var) (sym expr : Cell) :
    canBind w t sym expr = .value false := by
  rw [canBind, if_neg ht]

theorem sameContents_comm : sameContents w left right = sameContents w right left := by
  unfold sameContents
  by_cases h : contentsOf w left = contentsOf w right
  · simp [h]
  · simp [h, Ne.symm h]

/-- What one pass of the loop does to terms: a step of unification, or the end at a clash. -/
def PassSpec (w : World) (left right : Cell) (s : Sets) : Prop :=
  (∃ s', unifyPair w left right s = .value (some s') ∧ SetsIn s' ∧
    State.Step (stateOf w ⟨(left, right) :: s.ws, s.mgu⟩) (stateOf w s')) ∨
  unifyPair w left right s = .value none ∧ State.Clash (termOf w left) (termOf w right)

variable {s : Sets}

theorem passSpec_any (hs : SetsIn s) {t u : UnifyType} (hl : unifyGetType w left = .value t)
    (hr : unifyGetType w right = .value u)
    (h : t = .any ∧ termOf w left = .any ∨ u = .any ∧ termOf w right = .any) :
    PassSpec w left right s := by
  refine .inl ⟨s, unifyPair_any hl hr (h.imp And.left And.left), hs, ?_⟩
  rw [stateOf, List.map_cons]
  rcases h with ⟨-, h⟩ | ⟨-, h⟩
  · rw [h]
    exact .anyLeft
  · rw [h]
    exact .anyRight

theorem passSpec_atoms (hs : SetsIn s)
    (hsame : sameCells w left right = .value (decide (labelOf w.rt left = labelOf w.rt right)))
    (hlt : unifyGetType w left = .value .atom) (hrt : unifyGetType w right = .value .atom)
    (hlterm : termOf w left = .const (labelOf w.rt left))
    (hrterm : termOf w right = .const (labelOf w.rt right)) : PassSpec w left right s := by
  have hpass := unifyPair_same (s := s) hlt hrt (by simp) (.inl ⟨rfl, rfl⟩) hsame
  by_cases hlabel : labelOf w.rt left = labelOf w.rt right
  · refine .inl ⟨s, by simpa [hlabel] using hpass, hs, ?_⟩
    rw [stateOf, List.map_cons, hlterm, hrterm, hlabel]
    exact .const
  · refine .inr ⟨by simpa [hlabel] using hpass, ?_⟩
    rw [hlterm, hrterm]
    exact .const hlabel

/-- An atom and a list end the loop. -/
theorem unifyPair_scalar_list {cells : List Cell} (hls : isScalar left = true)
    (hlt : unifyGetType w left = .value .atom) :
    unifyPair w left (.expression cells) s = .value none ∧
      unifyPair w (.expression cells) left s = .value none := by
  by_cases hcontents : sameContents w left (.expression cells) = true
  · obtain ⟨hsame, hsame'⟩ := sameCells_scalar_list hls hcontents
    have hcontents' := sameContents_comm.symm.trans hcontents
    exact ⟨unifyPair_same hlt rfl (by simp) (.inr hcontents) hsame,
      unifyPair_same rfl hlt (by simp) (.inr hcontents') hsame'⟩
  · have hcontents' : ¬ sameContents w (.expression cells) left = true := by
      rwa [sameContents_comm]
    rw [unifyPair_terms hlt rfl (by simp) (by simp) hcontents,
      unifyPair_terms rfl hlt (by simp) (by simp) hcontents', unifyTerms, unifyTerms]
    simp [canBind_other]

theorem passSpec_lists {cells cells' : List Cell}
    (hl : isTerm (.expression cells) = true) (hr : isTerm (.expression cells') = true)
    (hs : SetsIn s) : PassSpec w (.expression cells) (.expression cells') s := by
  by_cases hcontents : sameContents w (.expression cells) (.expression cells') = true
  · obtain ⟨rfl, rfl⟩ := sameContents_lists hcontents
    have hpass : unifyPair w (.expression []) (.expression []) s = .value (some s) :=
      unifyPair_same rfl rfl (by simp) (.inr hcontents) sameCells_nil
    exact .inl ⟨s, hpass, hs, .lists rfl⟩
  · have hpass : unifyPair w (.expression cells) (.expression cells') s =
        .value (unifyLists cells cells' s) := by
      rw [unifyPair_terms rfl rfl (by simp) (by simp) hcontents, unifyTerms]
      simp [canBind_other, listOf]
    by_cases hlength : cells.length = cells'.length
    · rw [unifyLists, if_pos hlength] at hpass
      refine .inl ⟨_, hpass, ⟨?_, hs.mgu⟩, ?_⟩
      · intro pair hpair
        rcases List.mem_append.1 hpair with hpair | hpair
        · obtain ⟨hleft, hright⟩ := List.of_mem_zip (List.mem_reverse.1 hpair)
          exact ⟨areTerms_mem hl hleft, areTerms_mem hr hright⟩
        · exact hs.ws pair hpair
      · have hterms : (termsOf w cells).length = (termsOf w cells').length := by
          rw [length_termsOf, length_termsOf, hlength]
        have hws : (stateOf w { s with ws := (cells.zip cells').reverse ++ s.ws }).ws =
            ((termsOf w cells).zip (termsOf w cells')).reverse ++ (stateOf w s).ws := by
          rw [zip_termsOf, ← List.map_reverse]
          exact List.map_append
        change State.Step _ ⟨(stateOf w { s with ws := (cells.zip cells').reverse ++ s.ws }).ws, _⟩
        rw [hws]
        exact .lists hterms
    · rw [unifyLists, if_neg hlength] at hpass
      exact .inr ⟨hpass, .lists (by rwa [length_termsOf, length_termsOf])⟩

theorem isList_of_occurs {x : Symbol} (hvar : nameType x.name = .var) (hr : isTerm right = true)
    (hne : right ≠ .symbol x) (h : Term.Occurs x (termOf w right)) :
    ∃ cells, right = .expression cells := by
  cases right with
  | expression cells => exact ⟨cells, rfl⟩
  | nil | true_ | long _ | bigint _ | float _ | string _ | symbol _ =>
      exact absurd ((occurs_termOf_scalar hvar rfl).1 h) hne
  | _ => exact absurd hr (by simp [isTerm])

/-- The binding of a variable, or the end when it occurs in its term. -/
theorem bind_or_occurs {x : Symbol} (hvar : nameType x.name = .var) (hr : isTerm right = true)
    (hs : SetsIn s) (hown : ¬ Term.Occurs x (termOf w right) → OwnAddress w x right s)
    (hfree : x ∉ BindingList.keys (stateOf w s).mgu) :
    (¬ Term.Occurs x (termOf w right) ∧ canBind w .var (.symbol x) right = .value true ∧
      ∃ s', bindVariable w (.symbol x) right s = .value s' ∧ SetsIn s' ∧
        stateOf w s' = State.bind x (termOf w right) (stateOf w s)) ∨
    Term.Occurs x (termOf w right) ∧ canBind w .var (.symbol x) right = .value false := by
  by_cases hoccurs : Term.Occurs x (termOf w right)
  · exact .inr ⟨hoccurs, canBind_var (occurCheck_of_occurs hvar hr hoccurs)⟩
  · exact .inl ⟨hoccurs, canBind_var (occurCheck_of_own hr (hown hoccurs).term),
      bindVariable_spec hvar hr hs (hown hoccurs) hfree⟩

/-- A variable and a term without it, other than `_`, have different contents. -/
theorem sameContents_own {x : Symbol} (hvar : nameType x.name = .var) (hr : isTerm right = true)
    (hne : right ≠ .symbol x)
    (hown : ¬ Term.Occurs x (termOf w right) → OwnAddress w x right s) :
    sameContents w (.symbol x) right = false := by
  by_cases hoccurs : Term.Occurs x (termOf w right)
  · obtain ⟨cells, rfl⟩ := isList_of_occurs hvar hr hne hoccurs
    exact sameContents_expression x cells
  · have hterm := (hown hoccurs).term
    cases right with
    | expression cells => exact sameContents_expression x cells
    | nil | true_ | long _ | bigint _ | float _ | string _ | symbol _ =>
        exact hterm _ (by simp [atomsOf])
    | _ => exact absurd hr (by simp [isTerm])

theorem passSpec_varLeft {x : Symbol} (hvar : nameType x.name = .var) (hr : isTerm right = true)
    (hs : SetsIn s) (hown : ¬ Term.Occurs x (termOf w right) → OwnAddress w x right s)
    (hfree : x ∉ BindingList.keys (stateOf w s).mgu) {u : UnifyType}
    (hrt : unifyGetType w right = .value u) (hany : u ≠ .any ∧ termOf w right ≠ .any) :
    PassSpec w (.symbol x) right s := by
  have hlt : unifyGetType w (.symbol x) = .value .var := by rw [unifyGetType, hvar]
  by_cases hright : right = .symbol x
  · subst hright
    have hsame : sameContents w (.symbol x) (.symbol x) = true := by
      simp [sameContents, contentsOf]
    refine .inl ⟨s, ?_, hs, ?_⟩
    · exact unifyPair_same hlt hlt (by simp) (.inr hsame) (sameCells_symbol x)
    · rw [stateOf, List.map_cons, termOf_var hvar]
      exact .var
  · have hsame := sameContents_own hvar hr hright hown
    have hpass := unifyPair_terms (s := s) hlt hrt (by simp [hany.1]) (by simp)
      (by rw [hsame]; exact Bool.false_ne_true)
    rcases bind_or_occurs hvar hr hs hown hfree with ⟨hoccurs, hcan, s', hbind, hs', hstate⟩ |
      ⟨hoccurs, hcan⟩
    · refine .inl ⟨s', ?_, hs', ?_⟩
      · rw [hpass, unifyTerms, hcan, Outcome.value_bind, if_pos rfl, hbind]
        rfl
      · rw [hstate, stateOf, List.map_cons, termOf_var hvar]
        exact .bindLeft hany.2 hoccurs
    · obtain ⟨cells, rfl⟩ := isList_of_occurs hvar hr hright hoccurs
      cases hrt
      refine .inr ⟨?_, ?_⟩
      · rw [hpass, unifyTerms, hcan]
        simp [canBind_other]
      · rw [termOf_var hvar]
        rw [termOf] at hoccurs ⊢
        exact .occursLeft hoccurs

theorem passSpec_varRight {x : Symbol} (hvar : nameType x.name = .var) (hl : isTerm left = true)
    (hs : SetsIn s) (hown : ¬ Term.Occurs x (termOf w left) → OwnAddress w x left s)
    (hfree : x ∉ BindingList.keys (stateOf w s).mgu) {t : UnifyType}
    (hlt : unifyGetType w left = .value t) (htype : t ≠ .any ∧ t ≠ .var)
    (hany : termOf w left ≠ .any) (hleft : ∀ y, termOf w left ≠ .var y) :
    PassSpec w left (.symbol x) s := by
  have hrt : unifyGetType w (.symbol x) = .value .var := by rw [unifyGetType, hvar]
  have hne : left ≠ .symbol x := fun h => hleft x (by rw [h, termOf_var hvar])
  have hsame : sameContents w left (.symbol x) = false := by
    rw [sameContents_comm, sameContents_own hvar hl hne hown]
  have hpass := unifyPair_terms (s := s) hlt hrt (by simp [htype.1]) (by simp)
    (by rw [hsame]; exact Bool.false_ne_true)
  rcases bind_or_occurs hvar hl hs hown hfree with ⟨hoccurs, hcan, s', hbind, hs', hstate⟩ |
    ⟨hoccurs, hcan⟩
  · refine .inl ⟨s', ?_, hs', ?_⟩
    · rw [hpass, unifyTerms, canBind_other htype.2, Outcome.value_bind, if_neg Bool.false_ne_true,
        hcan, Outcome.value_bind, if_pos rfl, hbind]
      rfl
    · rw [hstate, stateOf, List.map_cons, termOf_var hvar]
      exact .bindRight hany hleft hoccurs
  · obtain ⟨cells, rfl⟩ := isList_of_occurs hvar hl hne hoccurs
    refine .inr ⟨?_, ?_⟩
    · rw [hpass, unifyTerms, canBind_other htype.2, Outcome.value_bind,
        if_neg Bool.false_ne_true, hcan]
      simp
    · rw [termOf_var hvar]
      rw [termOf] at hoccurs ⊢
      exact .occursRight hoccurs

theorem exists_type (h : isTerm left = true) : ∃ t, unifyGetType w left = .value t := by
  cases left with
  | symbol s => exact ⟨_, rfl⟩
  | expression cells => exact ⟨_, rfl⟩
  | nil | true_ | long _ | bigint _ | float _ | string _ => exact ⟨_, rfl⟩
  | _ => exact absurd h (by simp [isTerm])

/-- A pass of the loop over terms is a step of unification, or the end at a clash. -/
theorem unifyPair_spec (hd : Direct w left right s) (hl : isTerm left = true)
    (hr : isTerm right = true) (hs : SetsIn s)
    (hsolved : State.Solved (stateOf w ⟨(left, right) :: s.ws, s.mgu⟩)) :
    PassSpec w left right s := by
  have hpair := hsolved.ws (termOf w left, termOf w right) List.mem_cons_self
  cases termKind (w := w) hl with
  | any h =>
      obtain ⟨u, hu⟩ := exists_type hr
      exact passSpec_any hs (by rw [unifyGetType, h]) hu (.inl ⟨rfl, termOf_any h⟩)
  | @var x h =>
      have hfree : x ∉ BindingList.keys (stateOf w s).mgu := fun hkey => (hpair _ hkey).1 (by
        rw [termOf_var h, Term.Occurs])
      have hown := hd.varLeft x rfl h
      cases termKind (w := w) hr with
      | any h' =>
          exact passSpec_any hs (by rw [unifyGetType, h]) (by rw [unifyGetType, h'])
            (.inr ⟨rfl, termOf_any h'⟩)
      | var h' =>
          exact passSpec_varLeft h hr hs (hown (by simp [unifyGetType, h'])) hfree
            (by rw [unifyGetType, h']) ⟨by simp, by simp [termOf_var h']⟩
      | list =>
          exact passSpec_varLeft h hr hs (hown (by simp [unifyGetType])) hfree rfl
            ⟨by simp, by simp [termOf]⟩
      | atom _ htype hterm =>
          exact passSpec_varLeft h hr hs (hown (by simp [htype])) hfree htype
            ⟨by simp, by simp [hterm]⟩
  | list =>
      cases termKind (w := w) hr with
      | any h' => exact passSpec_any hs rfl (by rw [unifyGetType, h']) (.inr ⟨rfl, termOf_any h'⟩)
      | @var x h' =>
          have hfree : x ∉ BindingList.keys (stateOf w s).mgu := fun hkey => (hpair _ hkey).2 (by
            rw [termOf_var h', Term.Occurs])
          exact passSpec_varRight h' hl hs
            (hd.varRight x rfl h' (by simp [unifyGetType]) (by simp [unifyGetType])) hfree rfl
            ⟨by simp, by simp⟩ (by simp [termOf]) (by simp [termOf])
      | list => exact passSpec_lists hl hr hs
      | atom hscalar htype hterm =>
          refine .inr ⟨(unifyPair_scalar_list hscalar htype).2, ?_⟩
          rw [hterm, termOf]
          exact .listConst
  | atom hscalar htype hterm =>
      cases termKind (w := w) hr with
      | any h' => exact passSpec_any hs htype (by rw [unifyGetType, h']) (.inr ⟨rfl, termOf_any h'⟩)
      | @var x h' =>
          have hfree : x ∉ BindingList.keys (stateOf w s).mgu := fun hkey => (hpair _ hkey).2 (by
            rw [termOf_var h', Term.Occurs])
          exact passSpec_varRight h' hl hs
            (hd.varRight x rfl h' (by simp [htype]) (by simp [htype])) hfree htype
            ⟨by simp, by simp⟩ (by simp [hterm]) (by simp [hterm])
      | list =>
          refine .inr ⟨(unifyPair_scalar_list hscalar htype).1, ?_⟩
          rw [hterm, termOf]
          exact .constList
      | atom hscalar' htype' hterm' =>
          exact passSpec_atoms hs (hd.atoms htype htype') htype htype' hterm hterm'

end Pair

end Unify

end NewLispNeo
