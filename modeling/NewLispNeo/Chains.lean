/-
Chains of linked cells: what a run along the `next` pointers visits, and what
becomes of it when one pointer is set to another cell.
-/
import Mathlib.Data.List.Nodup
import Mathlib.Logic.Function.Iterate

namespace Linked

universe u

variable {κ : Type u} {next next' : κ → κ} {a b c stop : κ} {l l₁ l₂ : List κ}

/-- The run along `next` from `a` to `b` visits the cells of `l`. -/
inductive Segment (next : κ → κ) : κ → List κ → κ → Prop
  | nil (a : κ) : Segment next a [] a
  | cons {a b : κ} {l : List κ} (h : Segment next (next a) l b) :
      Segment next a (a :: l) b

/-- A segment that ends at `stop` and has not passed it before. -/
structure Chain (next : κ → κ) (stop a : κ) (l : List κ) : Prop where
  segment : Segment next a l stop
  stop_notMem : stop ∉ l

namespace Segment

@[simp] theorem nil_iff : Segment next a [] b ↔ a = b := by
  constructor
  · intro h
    cases h
    rfl
  · rintro rfl
    exact .nil a

@[simp] theorem cons_iff :
    Segment next a (c :: l) b ↔ a = c ∧ Segment next (next c) l b := by
  constructor
  · intro h
    cases h with
    | cons h => exact ⟨rfl, h⟩
  · rintro ⟨rfl, h⟩
    exact .cons h

theorem append_iff :
    Segment next a (l₁ ++ l₂) b ↔
      ∃ c, Segment next a l₁ c ∧ Segment next c l₂ b := by
  induction l₁ generalizing a with
  | nil =>
      constructor
      · intro h
        exact ⟨a, .nil a, h⟩
      · rintro ⟨c, hnil, h⟩
        rwa [nil_iff.mp hnil]
  | cons d l₁ ih =>
      constructor
      · intro h
        obtain ⟨rfl, h⟩ := cons_iff.mp h
        obtain ⟨c, h₁, h₂⟩ := ih.mp h
        exact ⟨c, .cons h₁, h₂⟩
      · rintro ⟨c, h₁, h₂⟩
        obtain ⟨rfl, h₁⟩ := cons_iff.mp h₁
        exact .cons (ih.mpr ⟨c, h₁, h₂⟩)

theorem snoc_iff :
    Segment next a (l ++ [c]) b ↔ Segment next a l c ∧ next c = b := by
  rw [append_iff]
  constructor
  · rintro ⟨d, hl, hd⟩
    obtain ⟨rfl, hb⟩ := cons_iff.mp hd
    exact ⟨hl, nil_iff.mp hb⟩
  · rintro ⟨hl, rfl⟩
    exact ⟨c, hl, by simp⟩

/-- A segment depends on the pointers of the cells that it visits only. -/
theorem congr (h : Segment next a l b) (heq : ∀ c ∈ l, next' c = next c) :
    Segment next' a l b := by
  induction h with
  | nil a => exact .nil a
  | @cons a b l _ ih =>
      have hhead : next' a = next a := heq a List.mem_cons_self
      have htail : ∀ c ∈ l, next' c = next c := fun c hc =>
        heq c (List.mem_cons_of_mem a hc)
      refine .cons ?_
      rw [hhead]
      exact ih htail

theorem start_eq_head (h : Segment next a (c :: l) b) : a = c :=
  (cons_iff.mp h).1

end Segment

namespace Chain

@[simp] theorem nil_iff : Chain next stop a [] ↔ a = stop := by
  constructor
  · intro h
    exact Segment.nil_iff.mp h.segment
  · intro h
    exact ⟨Segment.nil_iff.mpr h, List.not_mem_nil⟩

@[simp] theorem cons_iff : Chain next stop a (c :: l) ↔
    a = c ∧ c ≠ stop ∧ Chain next stop (next c) l := by
  constructor
  · rintro ⟨hseg, hstop⟩
    obtain ⟨rfl, hseg⟩ := Segment.cons_iff.mp hseg
    rw [List.mem_cons, not_or] at hstop
    exact ⟨rfl, Ne.symm hstop.1, hseg, hstop.2⟩
  · rintro ⟨rfl, hne, hseg, hstop⟩
    refine ⟨.cons hseg, ?_⟩
    rw [List.mem_cons, not_or]
    exact ⟨Ne.symm hne, hstop⟩

theorem append_iff : Chain next stop a (l₁ ++ l₂) ↔
    ∃ c, Segment next a l₁ c ∧ stop ∉ l₁ ∧ Chain next stop c l₂ := by
  constructor
  · rintro ⟨hseg, hstop⟩
    obtain ⟨c, h₁, h₂⟩ := Segment.append_iff.mp hseg
    rw [List.mem_append, not_or] at hstop
    exact ⟨c, h₁, hstop.1, h₂, hstop.2⟩
  · rintro ⟨c, h₁, hstop, h₂⟩
    refine ⟨Segment.append_iff.mpr ⟨c, h₁, h₂.segment⟩, ?_⟩
    rw [List.mem_append, not_or]
    exact ⟨hstop, h₂.stop_notMem⟩

theorem congr (h : Chain next stop a l) (heq : ∀ c ∈ l, next' c = next c) :
    Chain next' stop a l :=
  ⟨h.segment.congr heq, h.stop_notMem⟩

/-- From one cell there is one chain. -/
theorem unique (h₁ : Chain next stop a l₁) (h₂ : Chain next stop a l₂) :
    l₁ = l₂ := by
  induction l₁ generalizing a l₂ with
  | nil =>
      obtain rfl := nil_iff.mp h₁
      cases l₂ with
      | nil => rfl
      | cons c l₂ =>
          obtain ⟨rfl, hne, -⟩ := cons_iff.mp h₂
          exact absurd rfl hne
  | cons c l₁ ih =>
      obtain ⟨rfl, hne, h₁⟩ := cons_iff.mp h₁
      cases l₂ with
      | nil => exact absurd (nil_iff.mp h₂) hne
      | cons d l₂ =>
          obtain ⟨rfl, -, h₂⟩ := cons_iff.mp h₂
          rw [ih h₁ h₂]

/-- A chain passes no cell twice: it would never come to its end. -/
theorem nodup (h : Chain next stop a l) : l.Nodup := by
  induction l generalizing a with
  | nil => exact List.nodup_nil
  | cons c l ih =>
      obtain ⟨rfl, hne, htail⟩ := cons_iff.mp h
      refine List.nodup_cons.mpr ⟨?_, ih htail⟩
      intro hmem
      obtain ⟨p, q, rfl⟩ := List.append_of_mem hmem
      obtain ⟨d, -, -, hq⟩ := append_iff.mp htail
      obtain rfl := hq.segment.start_eq_head
      have heq := unique (cons_iff.mpr ⟨rfl, hne, htail⟩) hq
      have hlen := congrArg List.length heq
      simp only [List.length_cons, List.length_append] at hlen
      omega

theorem eq_stop_iff (h : Chain next stop a l) : a = stop ↔ l = [] := by
  cases l with
  | nil => simpa using h
  | cons c l =>
      obtain ⟨rfl, hne, -⟩ := cons_iff.mp h
      simpa using hne

/-- Two chains in a row: the last pointer of the first is set to the start of
the second. -/
theorem link [DecidableEq κ] (h₁ : Chain next stop a (l₁ ++ [c]))
    (h₂ : Chain next stop b l₂) (hc : c ∉ l₂) :
    Chain (Function.update next c b) stop a (l₁ ++ [c] ++ l₂) := by
  have hnodup := h₁.nodup
  rw [List.nodup_append] at hnodup
  have hne : ∀ d ∈ l₁, d ≠ c := fun d hd =>
    hnodup.2.2 d hd c List.mem_cons_self
  have hseg : Segment (Function.update next c b) a (l₁ ++ [c]) b := by
    refine Segment.snoc_iff.mpr ⟨?_, Function.update_self ..⟩
    refine (Segment.snoc_iff.mp h₁.segment).1.congr fun d hd => ?_
    exact Function.update_of_ne (hne d hd) ..
  have hrest : Chain (Function.update next c b) stop b l₂ := by
    refine h₂.congr fun d hd => Function.update_of_ne ?_ ..
    rintro rfl
    exact hc hd
  exact append_iff.mpr ⟨b, hseg, h₁.stop_notMem, hrest⟩

/-- A chain cut after the cell `c`. -/
theorem cut [DecidableEq κ] (h : Chain next stop a (l₁ ++ [c] ++ l₂)) :
    Chain (Function.update next c stop) stop a (l₁ ++ [c]) ∧
      Chain (Function.update next c stop) stop (next c) l₂ := by
  have hnodup := h.nodup
  rw [List.append_assoc, List.nodup_append] at hnodup
  obtain ⟨-, hright, hdisj⟩ := hnodup
  obtain ⟨b, hseg, hstop, hrest⟩ := append_iff.mp h
  obtain ⟨hinit, rfl⟩ := Segment.snoc_iff.mp hseg
  constructor
  · refine ⟨Segment.snoc_iff.mpr ⟨?_, Function.update_self ..⟩, hstop⟩
    refine hinit.congr fun d hd => ?_
    exact Function.update_of_ne (hdisj d hd c (by simp)) ..
  · refine hrest.congr fun d hd => Function.update_of_ne ?_ ..
    rintro rfl
    simp only [List.singleton_append, List.nodup_cons] at hright
    exact hright.1 hd

end Chain

end Linked
