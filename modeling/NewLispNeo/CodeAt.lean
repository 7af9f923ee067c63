/-
A piece of code at a position of a longer one.
-/
import Mathlib.Data.List.Basic

/-- The elements of `piece` stand in `code` from position `pos` on. -/
def CodeAt {α : Type*} (code : List α) : Nat → List α → Prop
  | _, [] => True
  | pos, a :: piece => code[pos]? = some a ∧ CodeAt code (pos + 1) piece

namespace CodeAt

variable {α : Type*} {code : List α}

@[simp] theorem nil (pos : Nat) : CodeAt code pos [] := trivial

@[simp] theorem cons_iff {pos : Nat} {a : α} {piece : List α} :
    CodeAt code pos (a :: piece) ↔
      code[pos]? = some a ∧ CodeAt code (pos + 1) piece := Iff.rfl

@[simp] theorem append_iff {pos : Nat} {p q : List α} :
    CodeAt code pos (p ++ q) ↔
      CodeAt code pos p ∧ CodeAt code (pos + p.length) q := by
  induction p generalizing pos with
  | nil => simp
  | cons a p ih =>
      simp only [List.cons_append, cons_iff, ih, List.length_cons, and_assoc]
      rw [show pos + 1 + p.length = pos + (p.length + 1) by omega]

theorem of_append (pre post : List α) (piece : List α) :
    CodeAt (pre ++ piece ++ post) pre.length piece := by
  induction piece generalizing pre with
  | nil => simp
  | cons a piece ih =>
      refine ⟨by simp, ?_⟩
      have h := ih (pre ++ [a])
      simpa using h

theorem self (code : List α) : CodeAt code 0 code := by
  simpa using of_append [] [] code

end CodeAt
