/-
Red-black trees with their paths: a tree with a hole is the list of the nodes above
the hole, the innermost first.  What is left and right is a parameter, so that a
case and its mirror image are one.
-/
import Mathlib.Data.List.Basic

namespace RedBlack

universe u

inductive Color where
  | black | red
deriving DecidableEq

inductive Side where
  | left | right
deriving DecidableEq

def Side.other : Side → Side
  | .left => .right
  | .right => .left

@[simp] theorem Side.other_other (s : Side) : s.other.other = s := by
  cases s <;> rfl

@[simp] theorem Side.other_ne (s : Side) : s.other ≠ s := by
  cases s <;> simp [Side.other]

@[simp] theorem Side.ne_other (s : Side) : s ≠ s.other := by
  cases s <;> simp [Side.other]

theorem Side.eq_other_of_ne {s t : Side} (h : t ≠ s) : t = s.other := by
  cases s <;> cases t <;> first | rfl | exact absurd rfl h

inductive ColoredTree (α : Type u) where
  | nil
  | node (color : Color) (left : ColoredTree α) (value : α) (right : ColoredTree α)

variable {α : Type u}

namespace ColoredTree

/-- The node with `a` on a side and `b` on the other. -/
def fork (s : Side) (c : Color) (a : ColoredTree α) (v : α) (b : ColoredTree α) : ColoredTree α :=
  match s with
  | .left => node c a v b
  | .right => node c b v a

theorem fork_other (s : Side) (c : Color) (a : ColoredTree α) (v : α) (b : ColoredTree α) :
    fork s.other c a v b = fork s c b v a := by
  cases s <;> rfl

theorem eq_fork (s : Side) (c : Color) (l : ColoredTree α) (v : α) (r : ColoredTree α) :
    ∃ a b, node c l v r = fork s c a v b := by
  cases s with
  | left => exact ⟨l, r, rfl⟩
  | right => exact ⟨r, l, rfl⟩

/-- The values from left to right. -/
def toList : ColoredTree α → List α
  | nil => []
  | node _ l v r => l.toList ++ v :: r.toList

/-- The values around a value on a side, from left to right. -/
def around (s : Side) (xs : List α) (v : α) (ys : List α) : List α :=
  match s with
  | .left => xs ++ v :: ys
  | .right => ys ++ v :: xs

theorem toList_fork (s : Side) (c : Color) (a : ColoredTree α) (v : α) (b : ColoredTree α) :
    (fork s c a v b).toList = around s a.toList v b.toList := by
  cases s <;> rfl

theorem around_other (s : Side) (xs : List α) (v : α) (ys : List α) :
    around s.other xs v ys = around s ys v xs := by
  cases s <;> rfl

/-- Every node is above the nodes to its left and below those to its right. -/
def Ordered (r : α → α → Prop) : ColoredTree α → Prop
  | nil => True
  | node _ a v b =>
      Ordered r a ∧ Ordered r b ∧ (∀ x ∈ a.toList, r x v) ∧ ∀ x ∈ b.toList, r v x

theorem ordered_of_pairwise {r : α → α → Prop} {t : ColoredTree α} (h : t.toList.Pairwise r) :
    t.Ordered r := by
  induction t with
  | nil => trivial
  | node c a v b iha ihb =>
      simp only [toList, List.pairwise_append, List.pairwise_cons] at h
      obtain ⟨ha, ⟨hvb, hb⟩, hav⟩ := h
      exact ⟨iha ha, ihb hb, fun x hx => hav x hx v List.mem_cons_self, hvb⟩

/-- Rotation does not change the order. -/
theorem around_assoc (s : Side) (xs : List α) (v : α) (ys : List α) (w : α) (zs : List α) :
    around s (around s xs v ys) w zs = around s xs v (around s ys w zs) := by
  cases s <;> simp [around]

def blacken : ColoredTree α → ColoredTree α
  | nil => nil
  | node _ l v r => node .black l v r

@[simp] theorem blacken_fork (s : Side) (c : Color) (a : ColoredTree α) (v : α)
    (b : ColoredTree α) : (fork s c a v b).blacken = fork s .black a v b := by
  cases s <;> rfl

@[simp] theorem toList_blacken (t : ColoredTree α) : t.blacken.toList = t.toList := by
  cases t <;> rfl

end ColoredTree

open ColoredTree

/-- No red node has a red child, and all paths have `n` black nodes; with the colour
of the root. -/
inductive RBBalanced : ColoredTree α → Color → Nat → Prop
  | nil : RBBalanced nil .black 0
  | red {a b : ColoredTree α} {v : α} {n : Nat} :
      RBBalanced a .black n → RBBalanced b .black n → RBBalanced (node .red a v b) .red n
  | black {a b : ColoredTree α} {v : α} {c d : Color} {n : Nat} :
      RBBalanced a c n → RBBalanced b d n → RBBalanced (node .black a v b) .black (n + 1)

section RBBalanced

variable {a b t : ColoredTree α} {v : α} {s : Side} {c d : Color} {n : Nat}

theorem RBBalanced.fork_red (ha : RBBalanced a .black n) (hb : RBBalanced b .black n) :
    RBBalanced (fork s .red a v b) .red n := by
  cases s with
  | left => exact .red ha hb
  | right => exact .red hb ha

theorem RBBalanced.fork_black (ha : RBBalanced a c n) (hb : RBBalanced b d n) :
    RBBalanced (fork s .black a v b) .black (n + 1) := by
  cases s with
  | left => exact .black ha hb
  | right => exact .black hb ha

theorem rbBalanced_fork_red (h : RBBalanced (fork s .red a v b) c n) :
    c = .red ∧ RBBalanced a .black n ∧ RBBalanced b .black n := by
  cases s with
  | left =>
      cases h with
      | red ha hb => exact ⟨rfl, ha, hb⟩
  | right =>
      cases h with
      | red ha hb => exact ⟨rfl, hb, ha⟩

theorem rbBalanced_fork_black (h : RBBalanced (fork s .black a v b) c n) :
    ∃ m d e, n = m + 1 ∧ c = .black ∧ RBBalanced a d m ∧ RBBalanced b e m := by
  cases s with
  | left =>
      cases h with
      | black ha hb => exact ⟨_, _, _, rfl, rfl, ha, hb⟩
  | right =>
      cases h with
      | black ha hb => exact ⟨_, _, _, rfl, rfl, hb, ha⟩

theorem RBBalanced.color_eq (h : RBBalanced (fork s c a v b) d n) : d = c := by
  cases c with
  | red => exact (rbBalanced_fork_red h).1
  | black =>
      obtain ⟨_, _, _, _, rfl, _⟩ := rbBalanced_fork_black h
      rfl

/-- A tree of positive height has a node at its root. -/
theorem RBBalanced.eq_fork (h : RBBalanced t c (n + 1)) (s : Side) :
    ∃ a v b, t = fork s c a v b := by
  cases h with
  | @red a b v _ ha hb =>
      obtain ⟨x, y, hxy⟩ := ColoredTree.eq_fork s .red a v b
      exact ⟨x, v, y, hxy⟩
  | @black a b v _ _ _ ha hb =>
      obtain ⟨x, y, hxy⟩ := ColoredTree.eq_fork s .black a v b
      exact ⟨x, v, y, hxy⟩

theorem RBBalanced.eq_fork_red (h : RBBalanced t .red n) (s : Side) :
    ∃ a v b, t = fork s .red a v b := by
  cases h with
  | @red a b v _ ha hb =>
      obtain ⟨x, y, hxy⟩ := ColoredTree.eq_fork s .red a v b
      exact ⟨x, v, y, hxy⟩

theorem RBBalanced.blacken_red (h : RBBalanced t .red n) : RBBalanced t.blacken .black (n + 1) := by
  cases h with
  | red ha hb => exact .black ha hb

end RBBalanced

/-- A node above the hole: the side of the hole, the colour, the value and the tree on
the other side. -/
structure TreeFrame (α : Type u) where
  side : Side
  color : Color
  value : α
  sibling : ColoredTree α

abbrev TreePath (α : Type u) := List (TreeFrame α)

def TreeFrame.plug (f : TreeFrame α) (t : ColoredTree α) : ColoredTree α :=
  fork f.side f.color t f.value f.sibling

theorem TreeFrame.plug_ne_nil (f : TreeFrame α) (t : ColoredTree α) : f.plug t ≠ .nil := by
  unfold TreeFrame.plug
  cases f.side <;> simp [fork]

namespace TreePath

def fill : TreePath α → ColoredTree α → ColoredTree α
  | [], t => t
  | f :: fs, t => fill fs (f.plug t)

/-- What fits in the hole: a tree of height `n`, whose root is black unless `c` is
red. -/
inductive Holds : TreePath α → Color → Nat → Prop
  | root {n : Nat} : Holds [] .red n
  | red {f : TreeFrame α} {fs : TreePath α} {n : Nat} : f.color = .red →
      RBBalanced f.sibling .black n → Holds fs .red n → Holds (f :: fs) .black n
  | black {f : TreeFrame α} {fs : TreePath α} {c d : Color} {n : Nat} : f.color = .black →
      RBBalanced f.sibling c n → Holds fs d (n + 1) → Holds (f :: fs) .red n

/-- The root is black, if it is on the path. -/
def RootBlack : TreePath α → Prop
  | [] => True
  | [f] => f.color = .black
  | _ :: fs => RootBlack fs

theorem RootBlack.tail {f : TreeFrame α} {fs : TreePath α} (h : RootBlack (f :: fs)) :
    RootBlack fs := by
  cases fs with
  | nil => trivial
  | cons g gs => exact h

/-- The value above the hole. -/
def top (p : TreePath α) : Option α := p.head?.map TreeFrame.value

@[simp] theorem top_nil : top ([] : TreePath α) = none := rfl
@[simp] theorem top_cons (f : TreeFrame α) (fs : TreePath α) : top (f :: fs) = some f.value := rfl

/-- The values outside the hole. -/
def labels : TreePath α → List α
  | [] => []
  | f :: fs => f.value :: (f.sibling.toList ++ labels fs)

theorem length_le_labels (p : TreePath α) : p.length ≤ p.labels.length := by
  induction p with
  | nil => simp
  | cons f fs ih =>
      simp only [List.length_cons, labels, List.length_append]
      omega

/-- What is to the left of the hole and to its right. -/
def surround : TreePath α → List α → List α
  | [], xs => xs
  | f :: fs, xs => surround fs (around f.side xs f.value f.sibling.toList)

theorem toList_fill (p : TreePath α) (t : ColoredTree α) :
    (p.fill t).toList = p.surround t.toList := by
  induction p generalizing t with
  | nil => rfl
  | cons f fs ih =>
      rw [fill, ih, surround]
      congr 1
      exact toList_fork ..

theorem around_perm (s : Side) (xs : List α) (v : α) (ys : List α) :
    (around s xs v ys).Perm (xs ++ v :: ys) := by
  cases s with
  | left => exact .refl _
  | right =>
      refine List.perm_middle.trans ?_
      refine (List.Perm.cons v List.perm_append_comm).trans ?_
      exact List.perm_middle.symm

theorem plug_perm (f : TreeFrame α) (fs : TreePath α) (t : ColoredTree α) :
    ((f.plug t).toList ++ labels fs).Perm (t.toList ++ labels (f :: fs)) := by
  have hplug : (f.plug t).toList.Perm (t.toList ++ f.value :: f.sibling.toList) := by
    unfold TreeFrame.plug
    rw [toList_fork]
    exact around_perm ..
  simpa [labels] using hplug.append_right (labels fs)

theorem fill_perm (p : TreePath α) (t : ColoredTree α) :
    (p.fill t).toList.Perm (t.toList ++ p.labels) := by
  induction p generalizing t with
  | nil => simp [fill, labels]
  | cons f fs ih => exact (ih (f.plug t)).trans (plug_perm f fs t)

/-- What is to the left of the hole. -/
def before : TreePath α → List α
  | [] => []
  | f :: fs =>
      match f.side with
      | .left => before fs
      | .right => before fs ++ (f.sibling.toList ++ [f.value])

/-- What is to the right of the hole. -/
def after : TreePath α → List α
  | [] => []
  | f :: fs =>
      match f.side with
      | .left => f.value :: f.sibling.toList ++ after fs
      | .right => after fs

theorem surround_eq (p : TreePath α) (xs : List α) : p.surround xs = p.before ++ xs ++ p.after := by
  induction p generalizing xs with
  | nil => simp [surround, before, after]
  | cons f fs ih =>
      cases hs : f.side with
      | left => simp [surround, before, after, hs, around, ih]
      | right => simp [surround, before, after, hs, around, ih]

theorem fill_ne_nil {t : ColoredTree α} (p : TreePath α) (h : t ≠ .nil) : p.fill t ≠ .nil := by
  induction p generalizing t with
  | nil => exact h
  | cons f fs ih => exact ih (f.plug_ne_nil t)

theorem fill_append (p q : TreePath α) (t : ColoredTree α) :
    fill (p ++ q) t = fill q (fill p t) := by
  induction p generalizing t with
  | nil => rfl
  | cons f fs ih => exact ih (f.plug t)

/-- What fits in the hole makes a balanced tree; its root is black, if it is on the
path. -/
theorem Holds.fill {p : TreePath α} {t : ColoredTree α} {c d : Color} {n : Nat} (hp : p.Holds d n)
    (ht : RBBalanced t c n) (hfit : c = .black ∨ d = .red) (hroot : p.RootBlack)
    (htop : p = [] → c = .black) : ∃ m, RBBalanced (p.fill t) .black m := by
  induction hp generalizing t c with
  | root =>
      obtain rfl := htop rfl
      exact ⟨_, ht⟩
  | @red f fs n hcolor hsib hrest ih =>
      obtain rfl : c = .black := by simpa using hfit
      have hplug : RBBalanced (f.plug t) .red n := by
        unfold TreeFrame.plug
        rw [hcolor]
        exact ht.fork_red hsib
      refine ih hplug (.inr rfl) hroot.tail ?_
      rintro rfl
      exact absurd (hcolor.symm.trans hroot) (by simp)
  | black hcolor hsib hrest ih =>
      refine ih (c := .black) ?_ (.inl rfl) hroot.tail fun _ => rfl
      unfold TreeFrame.plug
      rw [hcolor]
      exact ht.fork_black hsib

/-- A hole in a balanced tree holds what is taken out of it. -/
theorem Holds.of_fill {p : TreePath α} {t : ColoredTree α} {m : Nat}
    (h : RBBalanced (p.fill t) .black m) :
    ∃ c d n, p.Holds d n ∧ RBBalanced t c n ∧ (c = .black ∨ d = .red) ∧ p.RootBlack ∧
      (p = [] → c = .black) := by
  induction p generalizing t with
  | nil => exact ⟨.black, .red, m, .root, h, .inl rfl, trivial, fun _ => rfl⟩
  | cons f fs ih =>
      obtain ⟨c, d, n, hholds, hplug, hfit, hroot, htop⟩ := ih h
      obtain ⟨s, k, v, b⟩ := f
      cases k with
      | red =>
          obtain ⟨rfl, ht, hb⟩ := rbBalanced_fork_red hplug
          obtain rfl : d = .red := by simpa using hfit
          refine ⟨.black, .black, n, .red rfl hb hholds, ht, .inl rfl, ?_, by simp⟩
          cases fs with
          | nil => exact absurd (htop rfl) (by simp)
          | cons g gs => exact hroot
      | black =>
          obtain ⟨m', e, e', rfl, rfl, ht, hb⟩ := rbBalanced_fork_black hplug
          refine ⟨e, .red, m', .black rfl hb hholds, ht, .inr rfl, ?_, by simp⟩
          cases fs with
          | nil => rfl
          | cons g gs => exact hroot

/-- The values do not matter. -/
theorem Holds.replace {p q : TreePath α} {s : Side} {c d : Color} {v w : α}
    {b : ColoredTree α} {n : Nat} (h : Holds (q ++ ⟨s, c, v, b⟩ :: p) d n) :
    Holds (q ++ ⟨s, c, w, b⟩ :: p) d n := by
  induction q generalizing d n with
  | nil =>
      cases h with
      | red hc hb hrest => exact .red hc hb hrest
      | black hc hb hrest => exact .black hc hb hrest
  | cons f fs ih =>
      cases h with
      | red hc hb hrest => exact .red hc hb (ih hrest)
      | black hc hb hrest => exact .black hc hb (ih hrest)

theorem RootBlack.replace {p q : TreePath α} {s : Side} {c : Color} {v w : α} {b : ColoredTree α}
    (h : RootBlack (q ++ ⟨s, c, v, b⟩ :: p)) : RootBlack (q ++ ⟨s, c, w, b⟩ :: p) := by
  induction q with
  | nil =>
      cases p with
      | nil => exact h
      | cons f fs => exact h
  | cons f fs ih =>
      cases fs with
      | nil => exact ih h
      | cons g gs => exact ih h

end TreePath

end RedBlack
