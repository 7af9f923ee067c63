/-
Trees ordered by their labels and then by their children, the first ones first.
-/
import Mathlib.Algebra.Order.Ring.Int
import Mathlib.Data.List.Lex
import Mathlib.Data.Prod.Lex

universe u

/-- A label with children. -/
inductive LabelTree (α : Type u) where
  | node (label : α) (children : List (LabelTree α))

namespace LabelTree

variable {α : Type u} [LinearOrder α]

/-- `-1`, `0` or `1`. -/
def sign (a b : α) : Int := if a < b then -1 else if b < a then 1 else 0

mutual

def order : LabelTree α → LabelTree α → Int
  | node a xs, node b ys => if sign a b ≠ 0 then sign a b else orderAll xs ys

/-- The first children that differ decide, or else which list ends first. -/
def orderAll : List (LabelTree α) → List (LabelTree α) → Int
  | x :: xs, y :: ys => if order x y ≠ 0 then order x y else orderAll xs ys
  | [], [] => 0
  | [], _ :: _ => -1
  | _ :: _, [] => 1

end

section Sign

variable {a b c : α}

@[simp] theorem sign_self (a : α) : sign a a = 0 := by simp [sign]

theorem sign_eq_zero_iff : sign a b = 0 ↔ a = b := by
  unfold sign
  split
  · rename_i hlt
    simp [hlt.ne]
  · rename_i hnlt
    split
    · rename_i hgt
      simp [hgt.ne']
    · rename_i hngt
      simp [le_antisymm (not_lt.1 hngt) (not_lt.1 hnlt)]

theorem sign_lt_zero_iff : sign a b < 0 ↔ a < b := by
  unfold sign
  split
  · rename_i hlt
    simp [hlt]
  · rename_i hnlt
    split <;> simp [hnlt]

theorem sign_swap (a b : α) : sign b a = -sign a b := by
  rcases lt_trichotomy a b with hlt | rfl | hgt
  · simp [sign, hlt, hlt.not_gt]
  · simp
  · simp [sign, hgt, hgt.not_gt]

theorem sign_congr {β : Type u} [LinearOrder β] {c d : β} (hlt : a < b ↔ c < d)
    (hgt : b < a ↔ d < c) : sign a b = sign c d :=
  if_congr hlt rfl (if_congr hgt rfl rfl)

theorem sign_lex {β : Type u} [LinearOrder β] (a c : α) (b d : β) :
    sign (toLex (a, b)) (toLex (c, d)) = if sign a c ≠ 0 then sign a c else sign b d := by
  rcases lt_trichotomy a c with hlt | rfl | hgt
  · simp [sign, Prod.Lex.toLex_lt_toLex, hlt]
  · simp [sign, Prod.Lex.toLex_lt_toLex]
  · simp [sign, Prod.Lex.toLex_lt_toLex, hgt, hgt.not_gt, hgt.ne']

theorem sign_cons (a b : α) (as bs : List α) :
    sign (a :: as) (b :: bs) = if sign a b ≠ 0 then sign a b else sign as bs := by
  rcases lt_trichotomy a b with hlt | rfl | hgt
  · simp [sign, List.cons_lt_cons_iff, hlt]
  · rw [sign_self, if_neg (not_not.2 rfl)]
    exact sign_congr (by simp) (by simp)
  · simp [sign, List.cons_lt_cons_iff, hgt, hgt.not_gt, hgt.ne']

end Sign

mutual

theorem eq_of_order_eq_zero : ∀ {x y : LabelTree α}, order x y = 0 → x = y
  | node a xs, node b ys, h => by
      rw [order] at h
      split at h
      · contradiction
      · rename_i hsign
        rw [sign_eq_zero_iff.1 (not_not.1 hsign), eq_of_orderAll_eq_zero h]

theorem eq_of_orderAll_eq_zero :
    ∀ {xs ys : List (LabelTree α)}, orderAll xs ys = 0 → xs = ys
  | [], [], _ => rfl
  | [], _ :: _, h => by simp [orderAll] at h
  | _ :: _, [], h => by simp [orderAll] at h
  | x :: xs, y :: ys, h => by
      rw [orderAll] at h
      split at h
      · contradiction
      · rename_i horder
        rw [eq_of_order_eq_zero (not_not.1 horder), eq_of_orderAll_eq_zero h]

end

mutual

theorem order_trans : ∀ {x y z : LabelTree α}, order x y < 0 → order y z < 0 → order x z < 0
  | node a xs, node b ys, node c zs, hxy, hyz => by
      rw [order] at hxy hyz ⊢
      by_cases hab : sign a b = 0
      · rw [if_neg (not_not.2 hab)] at hxy
        obtain rfl := sign_eq_zero_iff.1 hab
        by_cases hac : sign a c = 0
        · rw [if_neg (not_not.2 hac)] at hyz ⊢
          exact orderAll_trans hxy hyz
        · rwa [if_pos hac] at hyz ⊢
      · rw [if_pos hab, sign_lt_zero_iff] at hxy
        by_cases hbc : sign b c = 0
        · obtain rfl := sign_eq_zero_iff.1 hbc
          rw [if_pos hab, sign_lt_zero_iff]
          exact hxy
        · rw [if_pos hbc, sign_lt_zero_iff] at hyz
          have hac : sign a c < 0 := sign_lt_zero_iff.2 (hxy.trans hyz)
          rwa [if_pos hac.ne]

theorem orderAll_trans : ∀ {xs ys zs : List (LabelTree α)},
    orderAll xs ys < 0 → orderAll ys zs < 0 → orderAll xs zs < 0
  | [], [], _, hxy, _ => by simp [orderAll] at hxy
  | [], _ :: _, [], _, hyz => by simp [orderAll] at hyz
  | [], _ :: _, _ :: _, _, _ => by simp [orderAll]
  | _ :: _, [], _, hxy, _ => by simp [orderAll] at hxy
  | _ :: _, _ :: _, [], _, hyz => by simp [orderAll] at hyz
  | x :: xs, y :: ys, z :: zs, hxy, hyz => by
      rw [orderAll] at hxy hyz ⊢
      by_cases hx : order x y = 0
      · rw [if_neg (not_not.2 hx)] at hxy
        obtain rfl := eq_of_order_eq_zero hx
        by_cases hz : order x z = 0
        · rw [if_neg (not_not.2 hz)] at hyz ⊢
          exact orderAll_trans hxy hyz
        · rwa [if_pos hz] at hyz ⊢
      · rw [if_pos hx] at hxy
        by_cases hz : order y z = 0
        · obtain rfl := eq_of_order_eq_zero hz
          rwa [if_pos hx]
        · rw [if_pos hz] at hyz
          have hxz : order x z < 0 := order_trans hxy hyz
          rwa [if_pos hxz.ne]

end

/-- The order is transitive with ties. -/
theorem order_le_trans {x y z : LabelTree α} (hxy : order x y ≤ 0) (hyz : order y z ≤ 0) :
    order x z ≤ 0 := by
  rcases hxy.eq_or_lt with hzero | hlt
  · rwa [eq_of_order_eq_zero hzero]
  · rcases hyz.eq_or_lt with hzero | hlt'
    · rw [← eq_of_order_eq_zero hzero]
      exact hxy
    · exact (order_trans hlt hlt').le

end LabelTree
