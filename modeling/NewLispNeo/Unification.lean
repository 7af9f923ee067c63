/-
Unification of first-order terms with anonymous variables by a working set of pairs: the
set of solutions is kept by every step, and the bindings found are a most general solution.
-/
import Mathlib.Data.Set.Finite.Lattice
import Mathlib.Logic.Equiv.Basic
import Mathlib.Logic.Relation

universe u

namespace Unification

/-- A term: constants, variables, the anonymous variable and lists of terms. -/
inductive Term (K V : Type u) where
  | const (k : K)
  | var (v : V)
  | any
  | list (ts : List (Term K V))

namespace Term

variable {K V : Type u}

mutual

def subst (σ : V → Term K V) : Term K V → Term K V
  | const k => const k
  | var v => σ v
  | any => any
  | list ts => list (substAll σ ts)

def substAll (σ : V → Term K V) : List (Term K V) → List (Term K V)
  | [] => []
  | t :: ts => subst σ t :: substAll σ ts

end

mutual

/-- The variable occurs in the term. -/
def Occurs (x : V) : Term K V → Prop
  | const _ => False
  | var v => x = v
  | any => False
  | list ts => OccursAll x ts

def OccursAll (x : V) : List (Term K V) → Prop
  | [] => False
  | t :: ts => Occurs x t ∨ OccursAll x ts

end

mutual

/-- No anonymous variable occurs in the term. -/
def Plain : Term K V → Prop
  | const _ => True
  | var _ => True
  | any => False
  | list ts => PlainAll ts

def PlainAll : List (Term K V) → Prop
  | [] => True
  | t :: ts => Plain t ∧ PlainAll ts

end

mutual

/-- Equality of terms where every anonymous variable stands for any term. -/
def Agree : Term K V → Term K V → Prop
  | any, _ => True
  | _, any => True
  | const a, const b => a = b
  | var x, var y => x = y
  | list ss, list ts => AgreeAll ss ts
  | _, _ => False

def AgreeAll : List (Term K V) → List (Term K V) → Prop
  | [], [] => True
  | s :: ss, t :: ts => Agree s t ∧ AgreeAll ss ts
  | _, _ => False

end

mutual

def size : Term K V → ℕ
  | const _ => 1
  | var _ => 1
  | any => 1
  | list ts => sizeAll ts + 1

def sizeAll : List (Term K V) → ℕ
  | [] => 0
  | t :: ts => size t + sizeAll ts

end

/-- The substitution of one variable. -/
def single [DecidableEq V] (x : V) (t : Term K V) (v : V) : Term K V :=
  if v = x then t else var v

section Basics

variable {s t u : Term K V} {ss ts : List (Term K V)} {σ τ : V → Term K V} {x : V}

mutual

theorem agree_symm : ∀ {s t : Term K V}, Agree s t → Agree t s
  | any, any, _ | any, const _, _ | any, var _, _ | any, list _, _ => by simp [Agree]
  | const _, any, _ | var _, any, _ | list _, any, _ => by simp [Agree]
  | const a, const b, h => by
      rw [Agree] at h ⊢
      exact h.symm
  | var x, var y, h => by
      rw [Agree] at h ⊢
      exact h.symm
  | list ss, list ts, h => by
      rw [Agree] at h ⊢
      exact agreeAll_symm h
  | const _, var _, h | const _, list _, h | var _, const _, h | var _, list _, h
  | list _, const _, h | list _, var _, h => by simp [Agree] at h

theorem agreeAll_symm : ∀ {ss ts : List (Term K V)}, AgreeAll ss ts → AgreeAll ts ss
  | [], [], h => h
  | [], _ :: _, h | _ :: _, [], h => by simp [AgreeAll] at h
  | s :: ss, t :: ts, h => by
      rw [AgreeAll] at h ⊢
      exact ⟨agree_symm h.1, agreeAll_symm h.2⟩

end

theorem agree_comm : Agree s t ↔ Agree t s := ⟨agree_symm, agree_symm⟩

mutual

theorem agree_refl : ∀ t : Term K V, Agree t t
  | any => by simp [Agree]
  | const _ => by simp [Agree]
  | var _ => by simp [Agree]
  | list ts => by
      rw [Agree]
      exact agreeAll_refl ts

theorem agreeAll_refl : ∀ ts : List (Term K V), AgreeAll ts ts
  | [] => trivial
  | t :: ts => by
      rw [AgreeAll]
      exact ⟨agree_refl t, agreeAll_refl ts⟩

end

mutual

/-- Terms without anonymous variables agree only when they are the same. -/
theorem eq_of_agree : ∀ {s t : Term K V}, Plain s → Plain t → Agree s t → s = t
  | any, _, hs, _, _ => by simp [Plain] at hs
  | const _, any, _, ht, _ | var _, any, _, ht, _ | list _, any, _, ht, _ => by
      simp [Plain] at ht
  | const a, const b, _, _, h => by
      rw [Agree] at h
      rw [h]
  | var x, var y, _, _, h => by
      rw [Agree] at h
      rw [h]
  | list ss, list ts, hs, ht, h => by
      rw [Agree] at h
      rw [Plain] at hs ht
      rw [eq_of_agreeAll hs ht h]
  | const _, var _, _, _, h | const _, list _, _, _, h | var _, const _, _, _, h
  | var _, list _, _, _, h | list _, const _, _, _, h | list _, var _, _, _, h => by
      simp [Agree] at h

theorem eq_of_agreeAll : ∀ {ss ts : List (Term K V)}, PlainAll ss → PlainAll ts →
    AgreeAll ss ts → ss = ts
  | [], [], _, _, _ => rfl
  | [], _ :: _, _, _, h | _ :: _, [], _, _, h => by simp [AgreeAll] at h
  | s :: ss, t :: ts, hs, ht, h => by
      rw [AgreeAll] at h
      rw [PlainAll] at hs ht
      rw [eq_of_agree hs.1 ht.1 h.1, eq_of_agreeAll hs.2 ht.2 h.2]

end

theorem agree_iff_eq (hs : Plain s) (ht : Plain t) : Agree s t ↔ s = t :=
  ⟨eq_of_agree hs ht, fun h => h ▸ agree_refl s⟩

mutual

theorem plain_subst (hσ : ∀ v, Plain (σ v)) : ∀ {t : Term K V}, Plain t → Plain (t.subst σ)
  | const _, _ => by simp [subst, Plain]
  | var v, _ => by
      rw [subst]
      exact hσ v
  | any, h => by simp [Plain] at h
  | list ts, h => by
      rw [subst, Plain]
      rw [Plain] at h
      exact plainAll_subst hσ h

theorem plainAll_subst (hσ : ∀ v, Plain (σ v)) :
    ∀ {ts : List (Term K V)}, PlainAll ts → PlainAll (substAll σ ts)
  | [], _ => by simp [substAll, PlainAll]
  | t :: ts, h => by
      rw [substAll, PlainAll]
      rw [PlainAll] at h
      exact ⟨plain_subst hσ h.1, plainAll_subst hσ h.2⟩

end

mutual

/-- A substitution matters on the variables that occur only. -/
theorem subst_congr : ∀ {t : Term K V}, (∀ v, Occurs v t → σ v = τ v) → t.subst σ = t.subst τ
  | const _, _ => by simp [subst]
  | var v, h => by
      rw [subst, subst]
      exact h v rfl
  | any, _ => by simp [subst]
  | list ts, h => by
      rw [subst, subst, substAll_congr fun v hv => h v (by rw [Occurs]; exact hv)]

theorem substAll_congr : ∀ {ts : List (Term K V)}, (∀ v, OccursAll v ts → σ v = τ v) →
    substAll σ ts = substAll τ ts
  | [], _ => by simp [substAll]
  | t :: ts, h => by
      rw [substAll, substAll, subst_congr fun v hv => h v (by rw [OccursAll]; exact .inl hv),
        substAll_congr fun v hv => h v (by rw [OccursAll]; exact .inr hv)]

end

mutual

theorem subst_var : ∀ t : Term K V, t.subst var = t
  | const _ => by simp [subst]
  | var v => by simp [subst]
  | any => by simp [subst]
  | list ts => by rw [subst, substAll_var ts]

theorem substAll_var : ∀ ts : List (Term K V), substAll var ts = ts
  | [] => by simp [substAll]
  | t :: ts => by rw [substAll, subst_var t, substAll_var ts]

end

mutual

theorem subst_subst : ∀ t : Term K V, (t.subst τ).subst σ = t.subst fun v => (τ v).subst σ
  | const _ => by simp [subst]
  | var v => by simp [subst]
  | any => by simp [subst]
  | list ts => by rw [subst, subst, subst, substAll_substAll ts]

theorem substAll_substAll : ∀ ts : List (Term K V),
    substAll σ (substAll τ ts) = substAll (fun v => (τ v).subst σ) ts
  | [] => by simp [substAll]
  | t :: ts => by rw [substAll, substAll, substAll, subst_subst t, substAll_substAll ts]

end

mutual

theorem occurs_subst : ∀ {t : Term K V}, Occurs x (t.subst σ) ↔
    ∃ v, Occurs v t ∧ Occurs x (σ v)
  | const _ => by simp [subst, Occurs]
  | var v => by simp [subst, Occurs]
  | any => by simp [subst, Occurs]
  | list ts => by
      rw [subst, Occurs, occursAll_subst]
      simp only [Occurs]

theorem occursAll_subst : ∀ {ts : List (Term K V)}, OccursAll x (substAll σ ts) ↔
    ∃ v, OccursAll v ts ∧ Occurs x (σ v)
  | [] => by simp [substAll, OccursAll]
  | t :: ts => by
      rw [substAll, OccursAll, occurs_subst, occursAll_subst]
      simp only [OccursAll, or_and_right, exists_or]

end

mutual

/-- What is agreed with is not larger, when only it has anonymous variables. -/
theorem size_le_of_agree : ∀ {s t : Term K V}, Plain s → Agree s t → size t ≤ size s
  | any, _, hs, _ => by simp [Plain] at hs
  | const _, any, _, _ | var _, any, _, _ => by simp [size]
  | list _, any, _, _ => by simp [size]
  | const _, const _, _, _ | var _, var _, _, _ => by simp [size]
  | list ss, list ts, hs, h => by
      rw [Agree] at h
      rw [Plain] at hs
      rw [size, size]
      exact Nat.succ_le_succ (sizeAll_le_of_agree hs h)
  | const _, var _, _, h | const _, list _, _, h | var _, const _, _, h
  | var _, list _, _, h | list _, const _, _, h | list _, var _, _, h => by simp [Agree] at h

theorem sizeAll_le_of_agree : ∀ {ss ts : List (Term K V)}, PlainAll ss → AgreeAll ss ts →
    sizeAll ts ≤ sizeAll ss
  | [], [], _, _ => le_rfl
  | [], _ :: _, _, h | _ :: _, [], _, h => by simp [AgreeAll] at h
  | s :: ss, t :: ts, hs, h => by
      rw [AgreeAll] at h
      rw [PlainAll] at hs
      rw [sizeAll, sizeAll]
      exact Nat.add_le_add (size_le_of_agree hs.1 h.1) (sizeAll_le_of_agree hs.2 h.2)

end

mutual

theorem size_le_of_occurs : ∀ {t : Term K V}, Occurs x t → size (σ x) ≤ size (t.subst σ)
  | const _, h | any, h => by simp [Occurs] at h
  | var v, h => by
      rw [Occurs] at h
      rw [subst, h]
  | list ts, h => by
      rw [Occurs] at h
      rw [subst, size]
      exact (sizeAll_le_of_occurs h).trans (Nat.le_succ _)

theorem sizeAll_le_of_occurs : ∀ {ts : List (Term K V)}, OccursAll x ts →
    size (σ x) ≤ sizeAll (substAll σ ts)
  | [], h => by simp [OccursAll] at h
  | t :: ts, h => by
      rw [OccursAll] at h
      rw [substAll, sizeAll]
      rcases h with h | h
      · exact (size_le_of_occurs h).trans (Nat.le_add_right _ _)
      · exact (sizeAll_le_of_occurs h).trans (Nat.le_add_left _ _)

end

/-- No term is equal to a list with itself in it. -/
theorem not_agree_of_occurs (hσ : ∀ v, Plain (σ v)) (h : Occurs x (list ts)) :
    ¬ Agree (σ x) ((list ts).subst σ) := by
  intro hagree
  have hle := size_le_of_agree (hσ x) hagree
  rw [Occurs] at h
  rw [subst, size] at hle
  have hgt := sizeAll_le_of_occurs (σ := σ) h
  omega

mutual

/-- The term with a list of nothing for every anonymous variable. -/
def fill : Term K V → Term K V
  | const k => const k
  | var v => var v
  | any => list []
  | list ts => list (fillAll ts)

def fillAll : List (Term K V) → List (Term K V)
  | [] => []
  | t :: ts => fill t :: fillAll ts

end

mutual

theorem plain_fill : ∀ t : Term K V, Plain (fill t)
  | const _ | var _ => by simp [fill, Plain]
  | any => by simp [fill, Plain, PlainAll]
  | list ts => by
      rw [fill, Plain]
      exact plainAll_fill ts

theorem plainAll_fill : ∀ ts : List (Term K V), PlainAll (fillAll ts)
  | [] => by simp [fillAll, PlainAll]
  | t :: ts => by
      rw [fillAll, PlainAll]
      exact ⟨plain_fill t, plainAll_fill ts⟩

end

mutual

theorem agree_fill : ∀ t : Term K V, Agree (fill t) t
  | const _ | var _ | any => by simp [fill, Agree]
  | list ts => by
      rw [fill, Agree]
      exact agreeAll_fill ts

theorem agreeAll_fill : ∀ ts : List (Term K V), AgreeAll (fillAll ts) ts
  | [] => by simp [fillAll, AgreeAll]
  | t :: ts => by
      rw [fillAll, AgreeAll]
      exact ⟨agree_fill t, agreeAll_fill ts⟩

end

mutual

theorem exists_finset : ∀ t : Term K V, ∃ U : Set V, U.Finite ∧ ∀ v, Occurs v t → v ∈ U
  | const _ | any => ⟨∅, Set.finite_empty, by simp [Occurs]⟩
  | var x => ⟨{x}, Set.finite_singleton x, by simp [Occurs]⟩
  | list ts => by
      obtain ⟨U, hU, hts⟩ := exists_finset_all ts
      exact ⟨U, hU, fun v hv => hts v (by rwa [Occurs] at hv)⟩

theorem exists_finset_all : ∀ ts : List (Term K V),
    ∃ U : Set V, U.Finite ∧ ∀ v, OccursAll v ts → v ∈ U
  | [] => ⟨∅, Set.finite_empty, by simp [OccursAll]⟩
  | t :: ts => by
      obtain ⟨U, hU, ht⟩ := exists_finset t
      obtain ⟨W, hW, hts⟩ := exists_finset_all ts
      refine ⟨U ∪ W, hU.union hW, fun v hv => ?_⟩
      rw [OccursAll] at hv
      exact hv.imp (ht v) (hts v)

end

end Basics

section Single

variable [DecidableEq V] {t : Term K V} {σ : V → Term K V} {x y : V}

theorem subst_single_eq (u : Term K V) (h : σ x = t.subst σ) :
    (u.subst (single x t)).subst σ = u.subst σ := by
  rw [subst_subst]
  apply subst_congr
  intro v _
  unfold single
  split
  · rename_i hv
    rw [hv, h]
  · rw [subst]

theorem subst_single_of_not_occurs {u : Term K V} (h : ¬ Occurs x u) :
    u.subst (single x t) = u := by
  conv_rhs => rw [← subst_var u]
  apply subst_congr
  intro v hv
  unfold single
  split
  · rename_i hvx
    rw [hvx] at hv
    exact absurd hv h
  · rfl

theorem occurs_single {u : Term K V} (h : Occurs y (u.subst (single x t))) :
    (Occurs y u ∧ y ≠ x) ∨ Occurs y t := by
  obtain ⟨v, hv, hy⟩ := occurs_subst.1 h
  unfold single at hy
  split at hy
  · exact .inr hy
  · rename_i hvx
    rw [Occurs] at hy
    rw [hy]
    exact .inl ⟨hv, hvx⟩

theorem not_occurs_single {u : Term K V} (h : ¬ Occurs x t) :
    ¬ Occurs x (u.subst (single x t)) := by
  intro hx
  rcases occurs_single hx with ⟨-, hne⟩ | hx
  · exact hne rfl
  · exact h hx

end Single

end Term

open Term

variable {K V : Type u}

abbrev Pairs (K V : Type u) := List (Term K V × Term K V)

abbrev BindingList (K V : Type u) := List (V × Term K V)

/-- The working set and the bindings found, latest first. -/
structure State (K V : Type u) where
  ws : Pairs K V
  mgu : BindingList K V

namespace State

variable [DecidableEq V]

/-- Bind a variable that is not in its term, substituting it everywhere. -/
def bind (x : V) (t : Term K V) (s : State K V) : State K V where
  ws := s.ws.map fun p => (p.1.subst (single x t), p.2.subst (single x t))
  mgu := (x, t) :: s.mgu.map fun b => (b.1, b.2.subst (single x t))

/-- One step over the first pair. -/
inductive Step : State K V → State K V → Prop
  | anyLeft {t : Term K V} {ws : Pairs K V} {mgu : BindingList K V} :
      Step ⟨(any, t) :: ws, mgu⟩ ⟨ws, mgu⟩
  | anyRight {t : Term K V} {ws : Pairs K V} {mgu : BindingList K V} :
      Step ⟨(t, any) :: ws, mgu⟩ ⟨ws, mgu⟩
  | const {k : K} {ws : Pairs K V} {mgu : BindingList K V} :
      Step ⟨(.const k, .const k) :: ws, mgu⟩ ⟨ws, mgu⟩
  | var {x : V} {ws : Pairs K V} {mgu : BindingList K V} :
      Step ⟨(.var x, .var x) :: ws, mgu⟩ ⟨ws, mgu⟩
  | bindLeft {x : V} {t : Term K V} {ws : Pairs K V} {mgu : BindingList K V} (hany : t ≠ any)
      (hoccurs : ¬ Occurs x t) : Step ⟨(.var x, t) :: ws, mgu⟩ (bind x t ⟨ws, mgu⟩)
  | bindRight {x : V} {t : Term K V} {ws : Pairs K V} {mgu : BindingList K V} (hany : t ≠ any)
      (hvar : ∀ y, t ≠ .var y) (hoccurs : ¬ Occurs x t) :
      Step ⟨(t, .var x) :: ws, mgu⟩ (bind x t ⟨ws, mgu⟩)
  | lists {ss ts : List (Term K V)} {ws : Pairs K V} {mgu : BindingList K V}
      (h : ss.length = ts.length) :
      Step ⟨(list ss, list ts) :: ws, mgu⟩ ⟨(ss.zip ts).reverse ++ ws, mgu⟩

/-- Pairs without a solution. -/
inductive Clash : Term K V → Term K V → Prop
  | const {a b : K} (h : a ≠ b) : Clash (.const a) (.const b)
  | constList {k : K} {ts : List (Term K V)} : Clash (.const k) (.list ts)
  | listConst {k : K} {ts : List (Term K V)} : Clash (.list ts) (.const k)
  | lists {ss ts : List (Term K V)} (h : ss.length ≠ ts.length) : Clash (.list ss) (.list ts)
  | occursLeft {x : V} {ts : List (Term K V)} (h : Occurs x (.list ts)) :
      Clash (.var x) (.list ts)
  | occursRight {x : V} {ts : List (Term K V)} (h : Occurs x (.list ts)) :
      Clash (.list ts) (.var x)

/-- A variable occurs in the working set or in the bindings. -/
def Mentions (s : State K V) (x : V) : Prop :=
  (∃ p ∈ s.ws, Occurs x p.1 ∨ Occurs x p.2) ∨ ∃ b ∈ s.mgu, Occurs x b.2

/-- The next step puts a term with an anonymous variable for a variable that occurs
elsewhere. -/
def Copies (s : State K V) : Prop :=
  ∃ x t ws, (s.ws = (.var x, t) :: ws ∨ s.ws = (t, .var x) :: ws) ∧ t ≠ any ∧ ¬ Plain t ∧
    ¬ Occurs x t ∧ Mentions ⟨ws, s.mgu⟩ x

/-- The substitution makes the pairs and the bindings equal. -/
structure Solves (σ : V → Term K V) (s : State K V) : Prop where
  plain : ∀ v, Plain (σ v)
  ws : ∀ p ∈ s.ws, Agree (p.1.subst σ) (p.2.subst σ)
  mgu : ∀ b ∈ s.mgu, Agree (σ b.1) (b.2.subst σ)

section Solutions

variable {σ : V → Term K V} {s s' : State K V} {x : V} {l r t : Term K V} {ws : Pairs K V}
  {mgu : BindingList K V}

omit [DecidableEq V] in
theorem solves_cons : Solves σ ⟨(l, r) :: ws, mgu⟩ ↔
    Agree (l.subst σ) (r.subst σ) ∧ Solves σ ⟨ws, mgu⟩ := by
  constructor
  · rintro ⟨hplain, hws, hmgu⟩
    exact ⟨hws _ List.mem_cons_self, hplain, fun p hp => hws p (List.mem_cons_of_mem _ hp), hmgu⟩
  · rintro ⟨hagree, hplain, hws, hmgu⟩
    refine ⟨hplain, ?_, hmgu⟩
    rintro p (_ | ⟨_, hp⟩)
    · exact hagree
    · exact hws p hp

/-- Where the variable does not occur, binding it changes nothing else. -/
theorem bind_of_not_mentions (h : ¬ Mentions s x) :
    bind x t s = ⟨s.ws, (x, t) :: s.mgu⟩ := by
  have hws : s.ws.map (fun p => (p.1.subst (single x t), p.2.subst (single x t))) = s.ws := by
    conv_rhs => rw [← List.map_id s.ws]
    apply List.map_congr_left
    intro p hp
    rw [subst_single_of_not_occurs fun hx => h (.inl ⟨p, hp, .inl hx⟩),
      subst_single_of_not_occurs fun hx => h (.inl ⟨p, hp, .inr hx⟩)]
    rfl
  have hmgu : s.mgu.map (fun b => (b.1, b.2.subst (single x t))) = s.mgu := by
    conv_rhs => rw [← List.map_id s.mgu]
    apply List.map_congr_left
    intro b hb
    rw [subst_single_of_not_occurs fun hx => h (.inr ⟨b, hb, hx⟩)]
    rfl
  rw [bind, hws, hmgu]

/-- Binding a variable keeps the solutions, unless it copies an anonymous variable. -/
theorem solves_bind (hcopy : Plain t ∨ ¬ Mentions s x) :
    Solves σ (bind x t s) ↔ Agree (σ x) (t.subst σ) ∧ Solves σ s := by
  rcases hcopy with ht | hx
  · constructor
    · rintro ⟨hplain, hws, hmgu⟩
      have hagree := hmgu _ List.mem_cons_self
      have heq : σ x = t.subst σ := (agree_iff_eq (hplain x) (plain_subst hplain ht)).1 hagree
      refine ⟨hagree, hplain, ?_, ?_⟩
      · intro p hp
        have hpair := hws _ (List.mem_map_of_mem hp)
        rwa [subst_single_eq _ heq, subst_single_eq _ heq] at hpair
      · intro b hb
        have hbinding := hmgu _ (List.mem_cons_of_mem _ (List.mem_map_of_mem hb))
        rwa [subst_single_eq _ heq] at hbinding
    · rintro ⟨hagree, hplain, hws, hmgu⟩
      have heq : σ x = t.subst σ := (agree_iff_eq (hplain x) (plain_subst hplain ht)).1 hagree
      refine ⟨hplain, ?_, ?_⟩
      · intro p hp
        obtain ⟨q, hq, rfl⟩ := List.mem_map.1 hp
        rw [subst_single_eq _ heq, subst_single_eq _ heq]
        exact hws q hq
      · intro b hb
        rcases List.mem_cons.1 hb with rfl | hb
        · exact hagree
        · obtain ⟨c, hc, rfl⟩ := List.mem_map.1 hb
          rw [subst_single_eq _ heq]
          exact hmgu c hc
  · rw [bind_of_not_mentions hx]
    constructor
    · rintro ⟨hplain, hws, hmgu⟩
      exact ⟨hmgu _ List.mem_cons_self, hplain, hws, fun b hb => hmgu b (List.mem_cons_of_mem _ hb)⟩
    · rintro ⟨hagree, hplain, hws, hmgu⟩
      refine ⟨hplain, hws, ?_⟩
      rintro b (_ | ⟨_, hb⟩)
      · exact hagree
      · exact hmgu b hb

omit [DecidableEq V] in
theorem agreeAll_subst_zip {ss ts : List (Term K V)} (h : ss.length = ts.length) :
    AgreeAll (substAll σ ss) (substAll σ ts) ↔
      ∀ p ∈ ss.zip ts, Agree (p.1.subst σ) (p.2.subst σ) := by
  induction ss generalizing ts with
  | nil =>
      cases ts with
      | nil => simp [substAll, AgreeAll]
      | cons t ts => simp at h
  | cons s ss ih =>
      cases ts with
      | nil => simp at h
      | cons t ts =>
          rw [substAll, substAll, AgreeAll, ih (Nat.succ.inj h)]
          simp

omit [DecidableEq V] in
theorem plain_or_not_mentions (hcopy : ¬ Copies s)
    (hs : s.ws = (.var x, t) :: ws ∨ s.ws = (t, .var x) :: ws) (hany : t ≠ any)
    (hoccurs : ¬ Occurs x t) : Plain t ∨ ¬ Mentions ⟨ws, s.mgu⟩ x := by
  by_contra h
  obtain ⟨hplain, hmentions⟩ := not_or.1 h
  exact hcopy ⟨x, t, ws, hs, hany, hplain, hoccurs, not_not.1 hmentions⟩

omit [DecidableEq V] in
theorem length_eq_of_agreeAll {ss ts : List (Term K V)}
    (h : AgreeAll (substAll σ ss) (substAll σ ts)) : ss.length = ts.length := by
  induction ss generalizing ts with
  | nil =>
      cases ts with
      | nil => rfl
      | cons t ts => simp [substAll, AgreeAll] at h
  | cons s ss ih =>
      cases ts with
      | nil => simp [substAll, AgreeAll] at h
      | cons t ts =>
          rw [substAll, substAll, AgreeAll] at h
          rw [List.length_cons, List.length_cons, ih h.2]

/-- Every step keeps the solutions, unless it copies an anonymous variable. -/
theorem step_solves (h : Step s s') (hcopy : ¬ Copies s) : Solves σ s' ↔ Solves σ s := by
  cases h with
  | anyLeft => simp [solves_cons, subst, Agree]
  | anyRight =>
      rw [solves_cons, agree_comm]
      simp [subst, Agree]
  | const => simp [solves_cons, subst, Agree]
  | var => simp [solves_cons, agree_refl]
  | bindLeft hany hoccurs =>
      rw [solves_bind (plain_or_not_mentions hcopy (.inl rfl) hany hoccurs), solves_cons, subst]
  | bindRight hany hvar hoccurs =>
      rw [solves_bind (plain_or_not_mentions hcopy (.inr rfl) hany hoccurs), solves_cons,
        agree_comm, subst]
  | lists hlength =>
      rw [solves_cons, subst, subst, Agree, agreeAll_subst_zip hlength]
      constructor
      · rintro ⟨hplain, hws, hmgu⟩
        refine ⟨fun p hp => hws p ?_, hplain, fun p hp => hws p ?_, hmgu⟩
        · exact List.mem_append_left _ (List.mem_reverse.2 hp)
        · exact List.mem_append_right _ hp
      · rintro ⟨hpairs, hplain, hws, hmgu⟩
        refine ⟨hplain, fun p hp => ?_, hmgu⟩
        rcases List.mem_append.1 hp with hp | hp
        · exact hpairs p (List.mem_reverse.1 hp)
        · exact hws p hp

omit [DecidableEq V] in
/-- A clash has no solution. -/
theorem clash_solves (h : Clash l r) (hplain : ∀ v, Plain (σ v)) :
    ¬ Agree (l.subst σ) (r.subst σ) := by
  cases h with
  | const h => simpa [subst, Agree] using h
  | constList => simp [subst, Agree]
  | listConst => simp [subst, Agree]
  | lists h =>
      rw [subst, subst, Agree]
      exact fun hagree => h (length_eq_of_agreeAll hagree)
  | occursLeft h => exact not_agree_of_occurs hplain h
  | occursRight h => exact fun hagree => not_agree_of_occurs hplain h (agree_symm hagree)

end Solutions

end State

end Unification
