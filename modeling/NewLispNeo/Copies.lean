/-
Copying cells: `copyCell` counts the lambda cells it makes as owners.
-/
import NewLispNeo.Deletion

namespace NewLispNeo

open HeapCell (ownersList)

namespace Heap

/-- Owners have been added to objects that are valid, and nothing else. -/
structure AddsRefs (h h' : Heap) (added : Nat → Nat) : Prop where
  context : h'.context = h.context
  cells : h'.cells = h.cells
  frames : h'.frames = h.frames
  symbols : h'.symbols = h.symbols
  bytecode : ∀ b : Nat, (h'.objects[b]?).map BytecodeObj.bytecode =
    (h.objects[b]?).map BytecodeObj.bytecode
  valid : ∀ b, h'.valid b = h.valid b
  count : ∀ b, h'.refCount b = h.refCount b + added b
  valid_added : ∀ b, 0 < added b → h.valid b = true

theorem AddsRefs.refl (h : Heap) : AddsRefs h h fun _ => 0 :=
  ⟨rfl, rfl, rfl, rfl, fun _ => rfl, fun _ => rfl, fun _ => by simp,
    fun _ hb => absurd hb (Nat.lt_irrefl 0)⟩

theorem AddsRefs.trans {h₁ h₂ h₃ : Heap} {m n : Nat → Nat}
    (h₁₂ : AddsRefs h₁ h₂ m) (h₂₃ : AddsRefs h₂ h₃ n) :
    AddsRefs h₁ h₃ fun b => m b + n b where
  context := h₂₃.context.trans h₁₂.context
  cells := h₂₃.cells.trans h₁₂.cells
  frames := h₂₃.frames.trans h₁₂.frames
  symbols := h₂₃.symbols.trans h₁₂.symbols
  bytecode b := (h₂₃.bytecode b).trans (h₁₂.bytecode b)
  valid b := (h₂₃.valid b).trans (h₁₂.valid b)
  count b := by
    have hm := h₁₂.count b
    have hn := h₂₃.count b
    push_cast
    omega
  valid_added b hb := by
    by_cases hm : 0 < m b
    · exact h₁₂.valid_added b hm
    · rw [← h₁₂.valid b]
      exact h₂₃.valid_added b (by omega)

theorem AddsRefs.congr {h h' : Heap} {m n : Nat → Nat} (hadds : AddsRefs h h' m)
    (hsame : ∀ b, m b = n b) : AddsRefs h h' n := by
  have hfun : m = n := funext hsame
  exact hfun ▸ hadds

theorem addRef_adds {h : Heap} {b : Nat} (hb : h.valid b = true) :
    AddsRefs h (h.addRef b) fun x => if b = x then 1 else 0 := by
  have hmod : ∀ x, (h.addRef b).objects[x]? = (h.objects[x]?).map fun o =>
      if b = x then { o with refCount := o.refCount + 1 } else o := by
    intro x
    simp only [addRef, List.getElem?_modify]
    by_cases hx : b = x <;> cases h.objects[x]? <;> simp [hx]
  refine ⟨rfl, rfl, rfl, rfl, fun x => ?_, fun x => ?_, fun x => ?_, fun x hx => ?_⟩
  · rw [hmod]
    cases h.objects[x]? with
    | none => rfl
    | some o => by_cases hx : b = x <;> simp [hx]
  · unfold valid
    rw [hmod]
    cases h.objects[x]? with
    | none => rfl
    | some o => by_cases hx : b = x <;> simp [hx]
  · unfold refCount
    rw [hmod]
    cases hobj : h.objects[x]? with
    | none =>
        have hne : b ≠ x := by
          rintro rfl
          simp [valid, hobj] at hb
        simp [hne]
    | some o => by_cases hx : b = x <;> simp [hx]
  · by_cases hbx : b = x
    · exact hbx ▸ hb
    · simp [hbx] at hx

theorem bytecodeOf_eq_some {h : Heap} {aux : Option Nat} {b : Nat} :
    h.bytecodeOf aux = some b ↔ aux = some b ∧ h.valid b = true := by
  simp [bytecodeOf, Option.filter_eq_some_iff]

end Heap

/-- A lambda cell with an object in its `aux` is not empty. -/
def HeapCell.Filled (c : HeapCell) : Prop :=
  ∀ x ∈ c.lambdas, x.1 ≠ none → x.2 ≠ []

/-- A copy: the same cell, in which some lambda cells may have no bytecode. -/
structure HeapCell.CopyOf (c c' : HeapCell) : Prop where
  plain : c'.plain = c.plain
  lambdas : ∀ x ∈ c'.lambdas, x.1 ≠ none → x ∈ c.lambdas

namespace Heap

mutual

theorem copyCell_spec (h : Heap) (c : HeapCell) (hfilled : c.Filled) :
    AddsRefs h (h.copyCell c).2 (fun b => (h.copyCell c).1.owners b) ∧
      c.CopyOf (h.copyCell c).1 := by
  match c with
  | .atom cell => exact ⟨AddsRefs.refl h, rfl, fun x hx => by cases hx⟩
  | .quote c =>
      obtain ⟨hadds, hplain, hlambdas⟩ := copyCell_spec h c hfilled
      exact ⟨hadds, congrArg Cell.quote hplain, hlambdas⟩
  | .list type cs =>
      obtain ⟨hadds, hplain, hlambdas⟩ := copyCells_spec h cs hfilled
      refine ⟨hadds, ?_, hlambdas⟩
      exact congrArg type.cell hplain
  | .lambda aux [] =>
      have haux : aux = none := by
        by_contra hne
        exact hfilled (aux, []) (by simp [HeapCell.lambdas]) hne rfl
      subst haux
      exact ⟨(AddsRefs.refl h).congr fun b => by simp [copyCell], rfl,
        fun x hx _ => hx⟩
  | .lambda aux (d :: ds) =>
      have hsub : ∀ x ∈ HeapCell.lambdasList (d :: ds),
          x ∈ (HeapCell.lambda aux (d :: ds)).lambdas :=
        fun x hx => List.mem_cons_of_mem _ hx
      obtain ⟨hadds₁, hplain₁, hlambdas₁⟩ := copyCell_spec h d fun x hx =>
        hfilled x (hsub x (List.mem_append_left _ hx))
      obtain ⟨hadds₂, hplain₂, hlambdas₂⟩ :=
        copyCells_spec (h.copyCell d).2 ds fun x hx =>
          hfilled x (hsub x (List.mem_append_right _ hx))
      have hplain : HeapCell.plainList ((h.copyCell d).1 ::
          ((h.copyCell d).2.copyCells ds).1) = HeapCell.plainList (d :: ds) := by
        rw [HeapCell.plainList, HeapCell.plainList, hplain₁, hplain₂]
      have hlambdas : ∀ x ∈ HeapCell.lambdasList ((h.copyCell d).1 ::
          ((h.copyCell d).2.copyCells ds).1), x.1 ≠ none →
          x ∈ HeapCell.lambdasList (d :: ds) := by
        intro x hx hne
        rcases List.mem_append.mp hx with hx | hx
        · exact List.mem_append_left _ (hlambdas₁ x hx hne)
        · exact List.mem_append_right _ (hlambdas₂ x hx hne)
      cases hbc : h.bytecodeOf aux with
      | none =>
          simp only [copyCell, hbc]
          refine ⟨(hadds₁.trans hadds₂).congr fun b => by simp,
            congrArg (Cell.lambda none) hplain, fun x hx hne => ?_⟩
          rcases List.mem_cons.mp hx with rfl | hx
          · exact absurd rfl hne
          · exact hsub x (hlambdas x hx hne)
      | some b =>
          obtain ⟨rfl, hvalid⟩ := bytecodeOf_eq_some.mp hbc
          simp only [copyCell, hbc]
          have hadds := hadds₁.trans hadds₂
          have hb : ((h.copyCell d).2.copyCells ds).2.valid b = true := by
            rw [hadds.valid, hvalid]
          refine ⟨(hadds.trans (addRef_adds hb)).congr fun x => by simp,
            congrArg (Cell.lambda none) hplain, fun x hx hne => ?_⟩
          rcases List.mem_cons.mp hx with rfl | hx
          · rw [hplain]
            exact List.mem_cons_self
          · exact hsub x (hlambdas x hx hne)

theorem copyCells_spec (h : Heap) (cs : List HeapCell)
    (hfilled : ∀ x ∈ HeapCell.lambdasList cs, x.1 ≠ none → x.2 ≠ []) :
    AddsRefs h (h.copyCells cs).2 (fun b => ownersList b (h.copyCells cs).1) ∧
      HeapCell.plainList (h.copyCells cs).1 = HeapCell.plainList cs ∧
      ∀ x ∈ HeapCell.lambdasList (h.copyCells cs).1, x.1 ≠ none →
        x ∈ HeapCell.lambdasList cs := by
  match cs with
  | [] => exact ⟨AddsRefs.refl h, rfl, fun x hx => by cases hx⟩
  | c :: cs =>
      obtain ⟨hadds₁, hplain₁, hlambdas₁⟩ := copyCell_spec h c fun x hx =>
        hfilled x (List.mem_append_left _ hx)
      obtain ⟨hadds₂, hplain₂, hlambdas₂⟩ :=
        copyCells_spec (h.copyCell c).2 cs fun x hx =>
          hfilled x (List.mem_append_right _ hx)
      refine ⟨(hadds₁.trans hadds₂).congr fun b => by simp [copyCells], ?_,
        fun x hx hne => ?_⟩
      · simp only [copyCells]
        rw [HeapCell.plainList, HeapCell.plainList, hplain₁, hplain₂]
      · rcases List.mem_append.mp hx with hx | hx
        · exact List.mem_append_left _ (hlambdas₁ x hx hne)
        · exact List.mem_append_right _ (hlambdas₂ x hx hne)

end

end Heap

end NewLispNeo
