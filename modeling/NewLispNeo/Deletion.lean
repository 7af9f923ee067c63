/-
Deleting cells: `freeBytecodeObj` and `deleteList` keep every reference count the
number of its owners, and free no object that an undeleted cell leads to.
-/
import NewLispNeo.BytecodeHeap

namespace NewLispNeo

open HeapCell (ownersList)

namespace Heap

/-- `ref_count`. -/
def refCount (h : Heap) (b : Nat) : Int :=
  (h.objects[b]?.map (·.refCount)).getD 0

/-- The live lambda cells that own an object. -/
def owners (h : Heap) (b : Nat) : Nat := ownersList b (h.cells.map (·.2))

/-- Every count is right, where the `doomed` cells are still to be deleted. -/
structure Counted (h : Heap) (doomed : List HeapCell) : Prop where
  count : ∀ b, h.refCount b = h.owners b + ownersList b doomed
  valid : ∀ b, h.valid b = true ↔ 0 < h.refCount b
  held : ∀ b c, (some b, c) ∈ h.cells → h.valid b = true

section Set

variable {h h' : Heap} {b : Nat} {o o' : BytecodeObj}

theorem getElem?_set (ho : h.objects[b]? = some o)
    (hset : h'.objects = h.objects.set b o') (x : Nat) :
    h'.objects[x]? = if x = b then some o' else h.objects[x]? := by
  obtain ⟨hb, -⟩ := List.getElem?_eq_some_iff.mp ho
  rw [hset, List.getElem?_set]
  by_cases hx : b = x
  · rw [if_pos hx, if_pos hx.symm, if_pos hb]
  · rw [if_neg hx, if_neg (Ne.symm hx)]

theorem refCount_set (ho : h.objects[b]? = some o)
    (hset : h'.objects = h.objects.set b o') (x : Nat) :
    h'.refCount x = if x = b then o'.refCount else h.refCount x := by
  unfold refCount
  rw [getElem?_set ho hset]
  split <;> rfl

theorem valid_set (ho : h.objects[b]? = some o)
    (hset : h'.objects = h.objects.set b o') (x : Nat) :
    h'.valid x = if x = b then o'.magic else h.valid x := by
  unfold valid
  rw [getElem?_set ho hset]
  split <;> rfl

end Set

theorem refCount_eq {h : Heap} {b : Nat} {o : BytecodeObj}
    (ho : h.objects[b]? = some o) : h.refCount b = o.refCount := by
  simp [refCount, ho]

theorem valid_eq {h : Heap} {b : Nat} {o : BytecodeObj}
    (ho : h.objects[b]? = some o) : h.valid b = o.magic := by
  simp [valid, ho]

/-- The constants of an object are the cells it holds. -/
theorem owners_constants (h : Heap) (b x : Nat) :
    h.owners x = ownersList x ((h.cells.filter (·.1 ≠ some b)).map (·.2)) +
      ownersList x (h.constants b) := by
  have hperm : (h.cells.filter (·.1 = some b) ++
      h.cells.filter (·.1 ≠ some b)).Perm h.cells := by
    simpa using List.filter_append_perm (fun held => held.1 = some b) h.cells
  have howners := HeapCell.ownersList_perm x (hperm.map (·.2))
  rw [List.map_append, HeapCell.ownersList_append] at howners
  unfold owners constants
  omega

/-- Deleting one owner keeps the counts right. -/
theorem Counted.freeBytecodeObj {h : Heap} {b : Nat} {cs doomed : List HeapCell}
    (hcounted : Counted h (.lambda (some b) cs :: doomed)) :
    Counted (h.freeBytecodeObj b).1
      ((h.freeBytecodeObj b).2 ++ cs ++ doomed) := by
  obtain ⟨hcount, hvalid, hheld⟩ := hcounted
  have hdoomed : ∀ x, h.refCount x = h.owners x + ownersList x cs +
      ownersList x doomed + if x = b then 1 else 0 := by
    intro x
    rw [hcount x, HeapCell.ownersList_cons, HeapCell.owners_lambda]
    by_cases hx : x = b
    · simp [hx]
      omega
    · have hne : ¬ b = x := Ne.symm hx
      simp [hx, hne]
      omega
  have hpos : 0 < h.refCount b := by
    rw [hdoomed b, if_pos rfl]
    omega
  rcases freeBytecodeObj_cases h b with
    ⟨hfreed, -⟩ | ⟨o, ho, hmagic, ⟨hone, heq⟩ | ⟨hone, heq⟩⟩
  · rw [(hvalid b).mpr hpos] at hfreed
    cases hfreed
  · rw [heq]
    have hrc := refCount_eq ho
    refine ⟨fun x => ?_, fun x => ?_, fun x c hx => ?_⟩
    · have hx := hdoomed x
      rw [refCount_set ho rfl]
      by_cases hxb : x = b
      · subst hxb
        simp [owners] at hx ⊢
        omega
      · simp [hxb, owners] at hx ⊢
        omega
    · rw [refCount_set ho rfl, valid_set ho rfl]
      by_cases hxb : x = b
      · simp [hxb, hmagic]
        omega
      · simpa [hxb] using hvalid x
    · rw [valid_set ho rfl]
      by_cases hxb : x = b
      · simpa [hxb] using hmagic
      · simpa [hxb] using hheld x c hx
  · rw [heq]
    have hrc := refCount_eq ho
    refine ⟨fun x => ?_, fun x => ?_, fun x c hx => ?_⟩
    · have hx := hdoomed x
      have hconstants := owners_constants h b x
      rw [refCount_set ho rfl]
      by_cases hxb : x = b
      · subst hxb
        simp [owners] at hx hconstants ⊢
        omega
      · simp [hxb, owners] at hx hconstants ⊢
        omega
    · rw [refCount_set ho rfl, valid_set ho rfl]
      by_cases hxb : x = b
      · simp [hxb]
        omega
      · simpa [hxb] using hvalid x
    · obtain ⟨hmem, hne⟩ := List.mem_filter.mp hx
      have hxb : x ≠ b := by simpa using hne
      rw [valid_set ho rfl]
      simpa [hxb] using hheld x c hmem

theorem Counted.congr {h : Heap} {doomed doomed' : List HeapCell}
    (hcounted : Counted h doomed)
    (hsame : ∀ b, ownersList b doomed = ownersList b doomed') :
    Counted h doomed' :=
  { hcounted with count := fun b => hsame b ▸ hcounted.count b }

theorem Counted.deleteList {h : Heap} {doomed : List HeapCell}
    (hcounted : Counted h doomed) : Counted (h.deleteList doomed) [] := by
  fun_induction Heap.deleteList h doomed with
  | case1 h => exact hcounted
  | case2 h cell cells ih => exact ih (hcounted.congr fun b => by simp)
  | case3 h c cells ih => exact ih (hcounted.congr fun b => by simp)
  | case4 h type cs cells ih => exact ih (hcounted.congr fun b => by simp)
  | case5 h cs cells ih => exact ih (hcounted.congr fun b => by simp)
  | case6 h b cs cells _ ih => exact ih hcounted.freeBytecodeObj

/-- Deleting frees objects and takes away their constants, and does nothing
else. -/
structure Shrinks (h h' : Heap) : Prop where
  context : h'.context = h.context
  frames : h'.frames = h.frames
  symbols : h'.symbols = h.symbols
  bytecode : ∀ b : Nat, (h'.objects[b]?).map BytecodeObj.bytecode =
    (h.objects[b]?).map BytecodeObj.bytecode
  valid : ∀ b, h'.valid b = true → h.valid b = true
  cells : ∀ held ∈ h'.cells, held ∈ h.cells
  keeps : ∀ held ∈ h.cells, (∀ b, held.1 = some b → h'.valid b = true) →
    held ∈ h'.cells
  constants : ∀ b, h'.valid b = true → h'.constants b = h.constants b

theorem Shrinks.refl (h : Heap) : Shrinks h h :=
  ⟨rfl, rfl, rfl, fun _ => rfl, fun _ hb => hb, fun _ hx => hx,
    fun _ hx _ => hx, fun _ _ => rfl⟩

theorem Shrinks.trans {h₁ h₂ h₃ : Heap} (h₁₂ : Shrinks h₁ h₂)
    (h₂₃ : Shrinks h₂ h₃) : Shrinks h₁ h₃ where
  context := h₂₃.context.trans h₁₂.context
  frames := h₂₃.frames.trans h₁₂.frames
  symbols := h₂₃.symbols.trans h₁₂.symbols
  bytecode b := (h₂₃.bytecode b).trans (h₁₂.bytecode b)
  valid b hb := h₁₂.valid b (h₂₃.valid b hb)
  cells held hheld := h₁₂.cells held (h₂₃.cells held hheld)
  keeps held hheld hvalid := by
    refine h₂₃.keeps held (h₁₂.keeps held hheld fun b hb => ?_) hvalid
    exact h₂₃.valid b (hvalid b hb)
  constants b hb :=
    (h₂₃.constants b hb).trans (h₁₂.constants b (h₂₃.valid b hb))

theorem freeBytecodeObj_shrinks (h : Heap) (b : Nat) :
    Shrinks h (h.freeBytecodeObj b).1 := by
  rcases freeBytecodeObj_cases h b with
    ⟨-, heq⟩ | ⟨o, ho, hmagic, ⟨-, heq⟩ | ⟨-, heq⟩⟩
  · rw [heq]
    exact Shrinks.refl h
  · rw [heq]
    refine ⟨rfl, rfl, rfl, fun x => ?_, fun x hx => ?_, fun _ hx => hx,
      fun _ hx _ => hx, fun _ _ => rfl⟩
    · rw [getElem?_set ho rfl]
      split
      · rename_i hxb
        rw [hxb, ho]
        rfl
      · rfl
    · rw [valid_set ho rfl] at hx
      split at hx
      · rename_i hxb
        rw [hxb, valid_eq ho, hmagic]
      · exact hx
  · rw [heq]
    refine ⟨rfl, rfl, rfl, fun x => ?_, fun x hx => ?_,
      fun _ hx => (List.mem_filter.mp hx).1, fun held hheld hvalid => ?_,
      fun x hx => ?_⟩
    · rw [getElem?_set ho rfl]
      split
      · rename_i hxb
        rw [hxb, ho]
        rfl
      · rfl
    · rw [valid_set ho rfl] at hx
      split at hx
      · cases hx
      · exact hx
    · refine List.mem_filter.mpr ⟨hheld, ?_⟩
      by_contra hb
      have hb : held.1 = some b := by simpa using hb
      have hfreed := hvalid b hb
      rw [valid_set ho rfl, if_pos rfl] at hfreed
      cases hfreed
    · have hne : x ≠ b := by
        rintro rfl
        rw [valid_set ho rfl, if_pos rfl] at hx
        cases hx
      have hsame : ∀ held ∈ h.cells,
          (decide (held.1 = some x) && decide (held.1 ≠ some b)) =
            decide (held.1 = some x) := by
        intro held _
        by_cases hheld : held.1 = some x <;> simp [hheld, hne]
      unfold constants
      rw [List.filter_filter, List.filter_congr hsame]

theorem deleteList_shrinks (h : Heap) (doomed : List HeapCell) :
    Shrinks h (h.deleteList doomed) := by
  fun_induction Heap.deleteList h doomed with
  | case1 h => exact Shrinks.refl h
  | case6 h b cs cells _ ih => exact (freeBytecodeObj_shrinks h b).trans ih
  | _ => assumption

/-- Some lambda cell that is held by no constant pool owns the object, or one in
the constants of an object of which that is so. -/
inductive Rooted (h : Heap) : Nat → Prop where
  | cell {b : Nat} {c : HeapCell} (hc : (none, c) ∈ h.cells)
      (howns : 0 < c.owners b) : Rooted h b
  | constant {b b' : Nat} {c : HeapCell} (hc : (some b', c) ∈ h.cells)
      (howns : 0 < c.owners b) (hrooted : Rooted h b') : Rooted h b

theorem owners_pos_of_mem {h : Heap} {b : Nat} {held : Option Nat × HeapCell}
    (hheld : held ∈ h.cells) (howns : 0 < held.2.owners b) :
    0 < h.owners b := by
  obtain ⟨cells, hcells⟩ := HeapCell.owners_pos.mp howns
  refine List.countP_pos_iff.mpr ⟨_, HeapCell.mem_lambdasList.mpr
    ⟨held.2, List.mem_map_of_mem hheld, hcells⟩, ?_⟩
  simp

/-- An object that is rooted before a deletion is not freed by it. -/
theorem Rooted.valid {h h' : Heap} {b : Nat} (hrooted : Rooted h b)
    (hshrinks : Shrinks h h') (hcounted : Counted h' []) :
    h'.valid b = true := by
  have hlives : ∀ {x : Nat}, 0 < h'.owners x → h'.valid x = true := by
    intro x hx
    rw [hcounted.valid, hcounted.count]
    omega
  induction hrooted with
  | cell hc howns =>
      have hkept := hshrinks.keeps _ hc (by simp)
      exact hlives (owners_pos_of_mem hkept howns)
  | @constant b b' c hc howns _ ih =>
      have hkept := hshrinks.keeps _ hc (by rintro x ⟨⟩; exact ih)
      exact hlives (owners_pos_of_mem hkept howns)

end Heap

end NewLispNeo
