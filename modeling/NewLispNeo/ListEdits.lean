/-
What an edit of a list in place makes of its cells: elements are moved, one goes
in or comes out, and only the `aux` of the list itself can be another.
-/
import Mathlib.Data.List.Induction
import Mathlib.Data.List.Perm.Basic
import NewLispNeo.HeapStep

namespace NewLispNeo

open HeapCell (ownersList lambdasList)

namespace ListEdit

/-- The cells that the edit moves into the list. -/
def inserted (e : ListEdit) (new : HeapCell) : List HeapCell :=
  match e, new with
  | .extend, .list .expression ds => ds
  | e, new => if e.takesNew then [new] else []

/-- The result of an edit: the elements are those there were and those inserted,
without those that are returned or deleted. -/
def Rearranges (e : ListEdit) (new c : HeapCell) (cs : List HeapCell)
    (r : Edited) : Prop :=
  ∃ aux ds, r.cell = c.withElements aux ds ∧
    (ds ++ r.returned ++ r.deleted).Perm (cs ++ e.inserted new) ∧
    (e.overwrites c = true ∧ aux = none ∨
      e.overwrites c = false ∧ aux = c.aux ∧ ds ≠ [])

theorem eraseIdx_perm {α : Type} {l : List α} {i : Nat} {a : α}
    (h : l[i]? = some a) : (l.eraseIdx i ++ [a]).Perm l := by
  obtain ⟨hi, rfl⟩ := List.getElem?_eq_some_iff.mp h
  exact (List.perm_append_singleton _ _).trans
    (List.getElem_cons_eraseIdx_perm hi)

theorem set_perm {α : Type} {l : List α} {i : Nat} {a : α} (b : α)
    (h : l[i]? = some a) : (l.set i b ++ [a]).Perm (l ++ [b]) := by
  obtain ⟨hi, -⟩ := List.getElem?_eq_some_iff.mp h
  have hset : (l.set i b ++ [a]).Perm (b :: l.eraseIdx i ++ [a]) :=
    (List.set_perm_cons_eraseIdx hi b).append_right [a]
  have herase : (b :: l.eraseIdx i ++ [a]).Perm (b :: l) :=
    (eraseIdx_perm h).cons b
  exact (hset.trans herase).trans (List.perm_append_singleton b l).symm

theorem filterMap_range {α : Type} (l : List α) :
    (List.range l.length).filterMap (l[·]?) = l := by
  induction l using List.reverseRecOn with
  | nil => rfl
  | append_singleton l a ih =>
      have hbefore : (List.range l.length).filterMap ((l ++ [a])[·]?) =
          (List.range l.length).filterMap (l[·]?) :=
        List.filterMap_congr fun i hi =>
          List.getElem?_append_left (List.mem_range.mp hi)
      rw [List.length_append, List.length_singleton, List.range_succ,
        List.filterMap_append, hbefore, ih]
      simp

/-- The elements in another order. -/
theorem filterMap_perm {α : Type} {l : List α} {order : List Nat}
    (h : order.Perm (List.range l.length)) :
    (order.filterMap (l[·]?)).Perm l :=
  (h.filterMap _).trans (List.Perm.of_eq (filterMap_range l))

/-- Each edit of a list only rearranges cells. -/
theorem rearranges {e : ListEdit} {new c : HeapCell} {cs : List HeapCell}
    {r : Edited} (hcs : c.elements = some cs)
    (h : e.applyList new c cs = some r) : Rearranges e new c cs r := by
  have hover : ∀ {e : ListEdit}, e ≠ .setf → e.overwrites c = e.resets cs := by
    intro e he
    simp [overwrites, he, hcs]
  cases e with
  | undo =>
      cases h
      exact ⟨none, cs, rfl, by simp [inserted, takesNew],
        .inl ⟨by simp [hover, resets], rfl⟩⟩
  | pop =>
      cases cs with
      | nil =>
          cases h
          exact ⟨none, [], rfl, by simp [inserted, takesNew],
            .inl ⟨by simp [hover, resets], rfl⟩⟩
      | cons d ds =>
          cases h
          have hperm : (ds ++ [d] ++ []).Perm (d :: ds ++ inserted .pop new) := by
            simp [inserted, takesNew, List.perm_append_singleton]
          by_cases hds : ds = []
          · exact ⟨none, ds, by simp [hds], hperm,
              .inl ⟨by simp [hover, resets, hds], rfl⟩⟩
          · exact ⟨c.aux, ds, by simp [hds], hperm,
              .inr ⟨by simp [hover, resets, hds], rfl, hds⟩⟩
  | popAt index =>
      simp only [applyList] at h
      cases hd : cs[index]? with
      | none => simp [hd] at h
      | some d =>
          simp only [hd] at h
          cases h
          have hperm : (cs.eraseIdx index ++ [d] ++ []).Perm
              (cs ++ inserted (.popAt index) new) := by
            simpa [inserted, takesNew] using eraseIdx_perm hd
          by_cases hlast : cs.length = index + 1
          · exact ⟨none, _, by simp [hlast], hperm,
              .inl ⟨by simp [hover, resets, hlast], rfl⟩⟩
          · have hi := (List.getElem?_eq_some_iff.mp hd).1
            have hne : cs.eraseIdx index ≠ [] := by
              refine List.ne_nil_of_length_pos ?_
              rw [List.length_eraseIdx_of_lt hi]
              omega
            exact ⟨c.aux, _, by simp [hlast], hperm,
              .inr ⟨by simp [hover, resets, hlast], rfl, hne⟩⟩
  | popAssoc index =>
      simp only [applyList] at h
      cases hd : cs[index]? with
      | none => simp [hd] at h
      | some d =>
          simp only [hd] at h
          cases h
          refine ⟨none, _, rfl, ?_, .inl ⟨by simp [hover, resets], rfl⟩⟩
          simpa [inserted, takesNew] using eraseIdx_perm hd
  | push index =>
      simp only [applyList] at h
      split at h
      · rename_i hi
        cases h
        refine ⟨none, _, rfl, ?_, .inl ⟨by simp [hover, resets], rfl⟩⟩
        simpa [inserted, takesNew] using (List.perm_insertIdx new cs hi).trans
          (List.perm_append_singleton new cs).symm
      · cases h
  | pushLast =>
      simp only [applyList] at h
      split at h
      · cases h
        exact ⟨none, _, rfl, by simp [inserted, takesNew],
          .inl ⟨by simp [hover, resets], rfl⟩⟩
      · cases h
  | extend =>
      simp only [applyList] at h
      split at h
      · cases h
        exact ⟨none, _, rfl, by simp [inserted],
          .inl ⟨by simp [hover, resets], rfl⟩⟩
      · cases h
  | reverse =>
      cases h
      refine ⟨none, _, rfl, ?_, .inl ⟨by simp [hover, resets], rfl⟩⟩
      simp [inserted, takesNew, List.reverse_perm]
  | rotate count =>
      cases h
      refine ⟨none, _, rfl, ?_, .inl ⟨by simp [hover, resets], rfl⟩⟩
      have hperm : (cs.drop (cs.length - count) ++
          cs.take (cs.length - count)).Perm (cs.take (cs.length - count) ++
          cs.drop (cs.length - count)) := List.perm_append_comm
      rw [List.take_append_drop] at hperm
      simpa [inserted, takesNew] using hperm
  | sort order =>
      simp only [applyList] at h
      split at h
      · rename_i horder
        cases h
        refine ⟨none, _, rfl, ?_, .inl ⟨by simp [hover, resets], rfl⟩⟩
        simpa [inserted, takesNew] using filterMap_perm horder.2
      · cases h
  | replaceAt index =>
      simp only [applyList] at h
      cases hd : cs[index]? with
      | none => simp [hd] at h
      | some d =>
          simp only [hd] at h
          cases h
          refine ⟨none, _, rfl, ?_, .inl ⟨by simp [hover, resets], rfl⟩⟩
          simpa [inserted, takesNew] using set_perm new hd
  | removeAt index =>
      simp only [applyList] at h
      cases hd : cs[index]? with
      | none => simp [hd] at h
      | some d =>
          simp only [hd] at h
          cases h
          refine ⟨none, _, rfl, ?_, .inl ⟨by simp [hover, resets], rfl⟩⟩
          simpa [inserted, takesNew] using eraseIdx_perm hd
  | setf => cases h

section Parts

variable {e : ListEdit} {new c : HeapCell} {r : Edited}

theorem owners_elements {cs : List HeapCell} (hcs : c.elements = some cs)
    (b : Nat) :
    c.owners b = ownersList b cs + if c.aux = some b then 1 else 0 := by
  cases c with
  | lambda aux ds =>
      obtain rfl : ds = cs := by simpa [HeapCell.elements] using hcs
      rw [HeapCell.owners_lambda]
      rfl
  | list type ds =>
      cases type <;> simp_all [HeapCell.elements, HeapCell.aux]
  | _ => cases hcs

theorem owners_withElements {cs : List HeapCell} (hcs : c.elements = some cs)
    (b : Nat) (aux : Option Nat) (ds : List HeapCell)
    (haux : aux = none ∨ aux = c.aux) :
    (c.withElements aux ds).owners b =
      ownersList b ds + if aux = some b then 1 else 0 := by
  cases c with
  | lambda aux' ds' => simp [HeapCell.withElements]
  | list type ds' =>
      have hnone : aux = none := by simpa [HeapCell.aux] using haux
      simp [HeapCell.withElements, hnone]
  | _ => cases hcs

theorem owners_inserted (b : Nat) : ownersList b (e.inserted new) =
    if e.takesNew then new.owners b else 0 := by
  unfold inserted
  split
  · simp [takesNew]
  · split <;> simp_all

/-- The lambda cells of the elements and of what was inserted. -/
theorem mem_lambdas_inserted {x : Option Nat × List Cell}
    (hx : x ∈ lambdasList (e.inserted new)) :
    e.takesNew = true ∧ x ∈ new.lambdas := by
  unfold inserted at hx
  split at hx
  · exact ⟨rfl, hx⟩
  · split at hx
    · rename_i htakes
      exact ⟨htakes, by simpa [lambdasList] using hx⟩
    · cases hx

theorem lambdas_elements {cs : List HeapCell} (hcs : c.elements = some cs)
    {x : Option Nat × List Cell} (hx : x ∈ lambdasList cs) : x ∈ c.lambdas := by
  cases c with
  | lambda aux ds =>
      obtain rfl : ds = cs := by simpa [HeapCell.elements] using hcs
      exact List.mem_cons_of_mem _ hx
  | list type ds =>
      cases type <;> simp_all [HeapCell.elements, HeapCell.lambdas]
  | _ => cases hcs

theorem lambdas_withElements {cs : List HeapCell} (hcs : c.elements = some cs)
    {aux : Option Nat} {ds : List HeapCell} {x : Option Nat × List Cell}
    (hx : x ∈ (c.withElements aux ds).lambdas) :
    x ∈ lambdasList ds ∨ x = (aux, HeapCell.plainList ds) := by
  cases c with
  | lambda aux' ds' => exact (List.mem_cons.mp hx).symm
  | list type ds' => exact .inl hx
  | _ => cases hcs

theorem lambdas_children {d : HeapCell} (hd : d ∈ c.children)
    {x : Option Nat × List Cell} (hx : x ∈ d.lambdas) : x ∈ c.lambdas := by
  cases c with
  | atom cell => cases hd
  | quote c => exact List.mem_singleton.mp hd ▸ hx
  | list type ds => exact HeapCell.mem_lambdasList.mpr ⟨d, hd, hx⟩
  | lambda aux ds =>
      exact List.mem_cons_of_mem _ (HeapCell.mem_lambdasList.mpr ⟨d, hd, hx⟩)

/-- A lambda cell with bytecode after an edit was there before, or is in the new
cell, or is the edited one with its `aux` kept. -/
theorem lambdas_apply (h : e.apply new c = some r) {d : HeapCell}
    (hd : d ∈ r.cell :: (r.returned ++ r.deleted))
    {x : Option Nat × List Cell} (hx : x ∈ d.lambdas) (hne : x.1 ≠ none) :
    x ∈ c.lambdas ∨ (e.takesNew = true ∧ x ∈ new.lambdas) ∨
      (x.1 = c.aux ∧ x.2 ≠ [] ∧ e.overwrites c = false) := by
  unfold apply at h
  split at h
  · rename_i he
    subst he
    cases h
    rcases List.mem_cons.mp hd with rfl | hd
    · exact .inr (.inl ⟨rfl, hx⟩)
    · exact .inl (lambdas_children (by simpa using hd) hx)
  · obtain ⟨cs, hcs, happly⟩ := Option.bind_eq_some_iff.mp h
    obtain ⟨aux, ds, hcell, hperm, haux⟩ := rearranges hcs happly
    have helement : ∀ d ∈ ds ++ r.returned ++ r.deleted, x ∈ d.lambdas →
        x ∈ c.lambdas ∨ e.takesNew = true ∧ x ∈ new.lambdas := by
      intro d hd hx
      rcases List.mem_append.mp (hperm.mem_iff.mp hd) with hd | hd
      · exact .inl (lambdas_elements hcs (HeapCell.mem_lambdasList.mpr ⟨d, hd, hx⟩))
      · exact .inr (mem_lambdas_inserted (HeapCell.mem_lambdasList.mpr ⟨d, hd, hx⟩))
    rcases List.mem_cons.mp hd with rfl | hd
    · rw [hcell] at hx
      rcases lambdas_withElements hcs hx with hx | rfl
      · obtain ⟨d, hd, hx⟩ := HeapCell.mem_lambdasList.mp hx
        exact (helement d (by simp [hd]) hx).imp_right .inl
      · rcases haux with ⟨-, rfl⟩ | ⟨hover, rfl, hds⟩
        · exact absurd rfl hne
        · exact .inr (.inr ⟨rfl, by simpa using hds, hover⟩)
    · refine (helement d ?_ hx).imp_right .inl
      rw [List.append_assoc]
      exact List.mem_append_right _ hd

theorem mem_symbolsList {s : Symbol} {cs : List HeapCell} :
    s ∈ Cell.symbolsList (HeapCell.plainList cs) ↔
      ∃ d ∈ cs, s ∈ d.plain.symbols := by
  simp [Cell.mem_symbolsList]

@[simp] theorem symbols_list (type : ListType) (l : List Cell) :
    (type.cell l).symbols = Cell.symbolsList l := by
  cases type <;> rfl

theorem symbols_children {d : HeapCell} (hd : d ∈ c.children) {s : Symbol}
    (hs : s ∈ d.plain.symbols) : s ∈ c.plain.symbols := by
  cases c with
  | atom cell => cases hd
  | quote c => exact List.mem_singleton.mp hd ▸ hs
  | list type ds =>
      rw [HeapCell.plain, symbols_list]
      exact mem_symbolsList.mpr ⟨d, hd, hs⟩
  | lambda aux ds => exact mem_symbolsList.mpr ⟨d, hd, hs⟩

theorem children_of_elements {cs : List HeapCell} (hcs : c.elements = some cs) :
    c.children = cs := by
  cases c with
  | list type ds => cases type <;> simp_all [HeapCell.elements, HeapCell.children]
  | lambda aux ds => exact Option.some.inj hcs
  | _ => cases hcs

theorem symbols_withElements {cs : List HeapCell} (hcs : c.elements = some cs)
    {aux : Option Nat} {ds : List HeapCell} {s : Symbol}
    (hs : s ∈ (c.withElements aux ds).plain.symbols) :
    ∃ d ∈ ds, s ∈ d.plain.symbols := by
  cases c with
  | lambda aux' ds' => exact mem_symbolsList.mp hs
  | list type ds' =>
      rw [HeapCell.withElements, HeapCell.plain, symbols_list] at hs
      exact mem_symbolsList.mp hs
  | _ => cases hcs

theorem symbols_put {path : List Nat} {old : HeapCell} {s : Symbol}
    (h : HeapCell.at_ path c = some old)
    (hs : s ∈ (HeapCell.put new path c).plain.symbols) :
    s ∈ new.plain.symbols ∨ s ∈ c.plain.symbols := by
  have hmodify : ∀ {cs : List HeapCell} {i : Nat} {d : HeapCell}
      {f : HeapCell → HeapCell}, cs[i]? = some d → ∀ e ∈ cs.modify i f,
      e = f d ∨ e ∈ cs := by
    intro cs i d f hd e he
    rw [List.modify_eq_set_getElem?, hd] at he
    exact (List.mem_or_eq_of_mem_set he).symm
  induction path generalizing c with
  | nil => exact .inl hs
  | cons i path ih =>
      cases c with
      | atom cell => cases h
      | quote c =>
          have hin : s ∈ new.plain.symbols ∨ s ∈ c.plain.symbols := ih h hs
          exact hin
      | list type cs =>
          obtain ⟨d, hd, hold⟩ := Option.bind_eq_some_iff.mp h
          rw [HeapCell.put, HeapCell.plain, symbols_list] at hs
          obtain ⟨e, he, hs⟩ := mem_symbolsList.mp hs
          rcases hmodify hd e he with rfl | he
          · refine (ih hold hs).imp_right fun hs => ?_
            exact symbols_children (List.mem_of_getElem? hd) hs
          · exact .inr (symbols_children he hs)
      | lambda aux cs =>
          obtain ⟨d, hd, hold⟩ := Option.bind_eq_some_iff.mp h
          obtain ⟨e, he, hs⟩ := mem_symbolsList.mp hs
          rcases hmodify hd e he with rfl | he
          · refine (ih hold hs).imp_right fun hs => ?_
            exact symbols_children (List.mem_of_getElem? hd) hs
          · exact .inr (symbols_children he hs)

theorem symbols_at {path : List Nat} {old : HeapCell} {s : Symbol}
    (h : HeapCell.at_ path c = some old) (hs : s ∈ old.plain.symbols) :
    s ∈ c.plain.symbols := by
  induction path generalizing c with
  | nil =>
      obtain rfl : c = old := by simpa [HeapCell.at_] using h
      exact hs
  | cons i path ih =>
      cases c with
      | atom cell => cases h
      | quote c =>
          have hin : s ∈ c.plain.symbols := ih h
          exact hin
      | list type cs | lambda aux cs =>
          obtain ⟨d, hd, hold⟩ := Option.bind_eq_some_iff.mp h
          exact symbols_children (List.mem_of_getElem? hd) (ih hold)

/-- An edit refers to no new symbols. -/
theorem symbols_apply (h : e.apply new c = some r) {d : HeapCell}
    (hd : d ∈ r.cell :: (r.returned ++ r.deleted)) {s : Symbol}
    (hs : s ∈ d.plain.symbols) :
    s ∈ c.plain.symbols ∨ (e.takesNew = true ∧ s ∈ new.plain.symbols) := by
  unfold apply at h
  split at h
  · rename_i he
    subst he
    cases h
    rcases List.mem_cons.mp hd with rfl | hd
    · exact .inr ⟨rfl, hs⟩
    · exact .inl (symbols_children (by simpa using hd) hs)
  · obtain ⟨cs, hcs, happly⟩ := Option.bind_eq_some_iff.mp h
    obtain ⟨aux, ds, hcell, hperm, -⟩ := rearranges hcs happly
    have helement : ∀ d ∈ ds ++ r.returned ++ r.deleted, s ∈ d.plain.symbols →
        s ∈ c.plain.symbols ∨ e.takesNew = true ∧ s ∈ new.plain.symbols := by
      intro d hd hs
      rcases List.mem_append.mp (hperm.mem_iff.mp hd) with hd | hd
      · exact .inl (symbols_children (children_of_elements hcs ▸ hd) hs)
      · unfold inserted at hd
        split at hd
        · refine .inr ⟨rfl, ?_⟩
          rw [HeapCell.plain, symbols_list]
          exact mem_symbolsList.mpr ⟨d, hd, hs⟩
        · split at hd
          · rename_i htakes
            exact .inr ⟨htakes, List.mem_singleton.mp hd ▸ hs⟩
          · cases hd
    rcases List.mem_cons.mp hd with rfl | hd
    · rw [hcell] at hs
      obtain ⟨d, hd, hs⟩ := symbols_withElements hcs hs
      exact helement d (by simp [hd]) hs
    · refine helement d ?_ hs
      rw [List.append_assoc]
      exact List.mem_append_right _ hd

/-- An edit loses no owner, unless it overwrites the `aux` of a lambda. -/
theorem owners_apply (h : e.apply new c = some r)
    (hkept : e.overwrites c = true → c.aux = none) (b : Nat) :
    r.cell.owners b + ownersList b r.returned + ownersList b r.deleted =
      c.owners b + if e.takesNew then new.owners b else 0 := by
  unfold apply at h
  split at h
  · rename_i he
    subst he
    cases h
    have haux := hkept (by simp [overwrites])
    cases c <;> simp_all [HeapCell.children, takesNew, HeapCell.aux,
      Nat.add_comm]
  · obtain ⟨cs, hcs, happly⟩ := Option.bind_eq_some_iff.mp h
    obtain ⟨aux, ds, hcell, hperm, haux⟩ := rearranges hcs happly
    have hauxes : aux = none ∨ aux = c.aux := haux.imp (·.2) (·.2.1)
    have hsame : aux = c.aux := by
      rcases haux with ⟨hover, rfl⟩ | ⟨-, haux, -⟩
      · exact (hkept hover).symm
      · exact haux
    have hcount := HeapCell.ownersList_perm b hperm
    simp only [HeapCell.ownersList_append, owners_inserted] at hcount
    rw [hcell, owners_withElements hcs b aux ds hauxes, owners_elements hcs,
      hsame]
    omega

end Parts

end ListEdit

end NewLispNeo
