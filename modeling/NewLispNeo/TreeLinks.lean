/-
The tree that the links of a symbol table stand for, and what recolouring and
rotating one node does to it.
-/
import NewLispNeo.SymbolTree
import Mathlib.Tactic.SplitIfs

namespace NewLispNeo

open RedBlack RedBlack.ColoredTree

namespace SymbolTree

section Fields

variable (T : SymbolTree) (x y : Nat) (c : Color) (p : Option Nat) (s r : Side)

attribute [local simp] setColor update color parent child name in
@[simp] theorem color_setColor : (T.setColor x c).color y = if y = x then c else T.color y := by
  by_cases h : y = x <;> simp [h]

@[simp] theorem parent_setColor : (T.setColor x c).parent y = T.parent y := by
  by_cases h : y = x <;> simp [setColor, update, parent, h]

@[simp] theorem child_setColor : (T.setColor x c).child s y = T.child s y := by
  by_cases h : y = x <;> cases s <;> simp [setColor, update, child, SymbolNode.child, h]

@[simp] theorem name_setColor : (T.setColor x c).name y = T.name y := by
  by_cases h : y = x <;> simp [setColor, update, name, h]

@[simp] theorem root_setColor : (T.setColor x c).root = T.root := rfl
@[simp] theorem fresh_setColor : (T.setColor x c).fresh = T.fresh := rfl

attribute [local simp] setParent update color in
@[simp] theorem color_setParent : (T.setParent x p).color y = T.color y := by
  by_cases h : y = x <;> simp [h]

@[simp] theorem parent_setParent :
    (T.setParent x p).parent y = if y = x then p else T.parent y := by
  by_cases h : y = x <;> simp [setParent, update, parent, h]

@[simp] theorem child_setParent : (T.setParent x p).child s y = T.child s y := by
  by_cases h : y = x <;> cases s <;> simp [setParent, update, child, SymbolNode.child, h]

@[simp] theorem name_setParent : (T.setParent x p).name y = T.name y := by
  by_cases h : y = x <;> simp [setParent, update, name, h]

@[simp] theorem root_setParent : (T.setParent x p).root = T.root := rfl
@[simp] theorem fresh_setParent : (T.setParent x p).fresh = T.fresh := rfl

attribute [local simp] setNodeParent in
@[simp] theorem color_setNodeParent : (T.setNodeParent x p).color y = T.color y := by
  unfold setNodeParent
  split_ifs <;> simp

@[simp] theorem parent_setNodeParent :
    (T.setNodeParent x p).parent y = if y = x ∧ x ≠ nilSym then p else T.parent y := by
  unfold setNodeParent
  split_ifs <;> simp_all

@[simp] theorem child_setNodeParent : (T.setNodeParent x p).child s y = T.child s y := by
  unfold setNodeParent
  split_ifs <;> simp

@[simp] theorem name_setNodeParent : (T.setNodeParent x p).name y = T.name y := by
  unfold setNodeParent
  split_ifs <;> simp

@[simp] theorem root_setNodeParent : (T.setNodeParent x p).root = T.root := by
  unfold setNodeParent
  split_ifs <;> simp

@[simp] theorem fresh_setNodeParent : (T.setNodeParent x p).fresh = T.fresh := by
  unfold setNodeParent
  split_ifs <;> simp

@[simp] theorem color_setChild (z : Nat) : (T.setChild s x z).color y = T.color y := by
  by_cases h : y = x <;> cases s <;> simp [setChild, SymbolNode.setChild, update, color, h]

@[simp] theorem parent_setChild (z : Nat) : (T.setChild s x z).parent y = T.parent y := by
  by_cases h : y = x <;> cases s <;> simp [setChild, SymbolNode.setChild, update, parent, h]

@[simp] theorem child_setChild (z : Nat) :
    (T.setChild s x z).child r y = if y = x ∧ r = s then z else T.child r y := by
  by_cases h : y = x <;> cases s <;> cases r <;>
    simp [setChild, SymbolNode.setChild, update, child, SymbolNode.child, h]

@[simp] theorem name_setChild (z : Nat) : (T.setChild s x z).name y = T.name y := by
  by_cases h : y = x <;> cases s <;> simp [setChild, SymbolNode.setChild, update, name, h]

@[simp] theorem root_setChild (z : Nat) : (T.setChild s x z).root = T.root := rfl
@[simp] theorem fresh_setChild (z : Nat) : (T.setChild s x z).fresh = T.fresh := rfl

end Fields

/-- The tree at `x`, whose nodes are its values. -/
def Linked (T : SymbolTree) : Option Nat → Nat → ColoredTree Nat → Prop
  | _, x, .nil => x = nilSym
  | p, x, .node c l v r =>
      x = v ∧ v ≠ nilSym ∧ T.color v = c ∧ T.parent v = p ∧
        Linked T (some v) (T.child .left v) l ∧ Linked T (some v) (T.child .right v) r

/-- The nodes above `x`. -/
def LinkedPath (T : SymbolTree) : Nat → TreePath Nat → Prop
  | x, [] => T.root.getD nilSym = x
  | x, f :: fs =>
      f.value ≠ nilSym ∧ T.color f.value = f.color ∧ T.parent f.value = TreePath.top fs ∧
        T.child f.side f.value = x ∧
        Linked T (some f.value) (T.child f.side.other f.value) f.sibling ∧
        LinkedPath T f.value fs

/-- The symbol table is the tree `t` at `x` under the path `p`. -/
structure At (T : SymbolTree) (p : TreePath Nat) (x : Nat) (t : ColoredTree Nat) : Prop where
  path : T.LinkedPath x p
  tree : T.Linked p.top x t
  nodup : (t.toList ++ p.labels).Nodup
  bound : ∀ y ∈ t.toList ++ p.labels, y < T.fresh
  leaf : T.color nilSym = .black

/-- The links of a node, which are the same. -/
def SameLinks (T U : SymbolTree) (x : Nat) : Prop :=
  U.color x = T.color x ∧ U.parent x = T.parent x ∧ ∀ s, U.child s x = T.child s x

variable {T U : SymbolTree} {p : TreePath Nat} {q : Option Nat} {x y : Nat}
  {t a b : ColoredTree Nat} {s : Side} {c : Color} {v : Nat} {f : TreeFrame Nat}

theorem linked_fork :
    T.Linked q x (fork s c a v b) ↔
      x = v ∧ v ≠ nilSym ∧ T.color v = c ∧ T.parent v = q ∧
        T.Linked (some v) (T.child s v) a ∧ T.Linked (some v) (T.child s.other v) b := by
  cases s with
  | left => rfl
  | right =>
      change x = v ∧ v ≠ nilSym ∧ T.color v = c ∧ T.parent v = q ∧
        T.Linked (some v) (T.child .left v) b ∧ T.Linked (some v) (T.child .right v) a ↔ _
      rw [and_comm (a := T.Linked (some v) (T.child .left v) b)]
      rfl

theorem Linked.congr (h : T.Linked q x t) (hsame : ∀ y ∈ t.toList, SameLinks T U y) :
    U.Linked q x t := by
  induction t generalizing q x with
  | nil => exact h
  | node c l v r ihl ihr =>
      obtain ⟨hx, hv, hc, hp, hl, hr⟩ := h
      simp only [toList, List.mem_append, List.mem_cons] at hsame
      obtain ⟨hc', hp', hchild⟩ := hsame v (.inr (.inl rfl))
      refine ⟨hx, hv, hc'.trans hc, hp'.trans hp, ?_, ?_⟩
      · rw [hchild]
        exact ihl hl fun y hy => hsame y (.inl hy)
      · rw [hchild]
        exact ihr hr fun y hy => hsame y (.inr (.inr hy))

/-- The parent link of the root alone says where the tree hangs. -/
theorem Linked.hang (h : T.Linked q x t) {r : Option Nat}
    (hroot : x ≠ nilSym → U.color x = T.color x ∧ U.parent x = r ∧
      ∀ s, U.child s x = T.child s x)
    (hsame : ∀ y ∈ t.toList, y ≠ x → SameLinks T U y) (hnodup : t.toList.Nodup) :
    U.Linked r x t := by
  cases t with
  | nil => exact h
  | node c l v w =>
      obtain ⟨rfl, hv, hc, hp, hl, hr⟩ := h
      obtain ⟨hc', hp', hchild⟩ := hroot hv
      simp only [toList, List.nodup_append, List.nodup_cons, List.mem_cons] at hnodup
      obtain ⟨-, ⟨hxr, -⟩, hlr⟩ := hnodup
      simp only [toList, List.mem_append, List.mem_cons] at hsame
      refine ⟨rfl, hv, hc'.trans hc, hp', ?_, ?_⟩
      · rw [hchild]
        exact hl.congr fun y hy => hsame y (.inl hy) (hlr y hy x (.inl rfl))
      · rw [hchild]
        refine hr.congr fun y hy => hsame y (.inr (.inr hy)) ?_
        rintro rfl
        exact hxr hy

theorem LinkedPath.congr (h : T.LinkedPath x p)
    (hroot : U.root.getD nilSym = T.root.getD nilSym)
    (hsame : ∀ y ∈ p.labels, SameLinks T U y) : U.LinkedPath x p := by
  induction p generalizing x with
  | nil => exact hroot.trans h
  | cons f fs ih =>
      obtain ⟨hv, hc, hp, hx, hsib, hrest⟩ := h
      simp only [TreePath.labels, List.mem_cons, List.mem_append] at hsame
      obtain ⟨hc', hp', hchild⟩ := hsame f.value (.inl rfl)
      refine ⟨hv, hc'.trans hc, hp'.trans hp, (hchild _).trans hx, ?_, ?_⟩
      · rw [hchild]
        exact hsib.congr fun y hy => hsame y (.inr (.inl hy))
      · exact ih hrest fun y hy => hsame y (.inr (.inr hy))

theorem Linked.mem (h : T.Linked q x t) (hx : x ≠ nilSym) : x ∈ t.toList := by
  cases t with
  | nil => exact absurd h hx
  | node c l v r => simp [toList, h.1]

theorem Linked.ne_nilSym (h : T.Linked q x t) (hy : y ∈ t.toList) : y ≠ nilSym := by
  induction t generalizing q x with
  | nil => simp [toList] at hy
  | node c l v r ihl ihr =>
      obtain ⟨-, hv, -, -, hl, hr⟩ := h
      simp only [toList, List.mem_append, List.mem_cons] at hy
      rcases hy with hy | rfl | hy
      · exact ihl hl hy
      · exact hv
      · exact ihr hr hy

theorem LinkedPath.ne_nilSym (h : T.LinkedPath x p) (hy : y ∈ p.labels) : y ≠ nilSym := by
  induction p generalizing x with
  | nil => simp [TreePath.labels] at hy
  | cons f fs ih =>
      obtain ⟨hv, -, -, -, hsib, hrest⟩ := h
      simp only [TreePath.labels, List.mem_cons, List.mem_append] at hy
      rcases hy with rfl | hy | hy
      · exact hv
      · exact hsib.ne_nilSym hy
      · exact ih hrest hy

section ReplaceChild

variable (T : SymbolTree) (s : Side) (q : Option Nat) (x y w : Nat)

@[simp] theorem color_replaceChild : (T.replaceChild s q x y).color w = T.color w := by
  cases q with
  | none => rfl
  | some g => by_cases h : x = T.child s g <;> simp [replaceChild, h]

@[simp] theorem parent_replaceChild : (T.replaceChild s q x y).parent w = T.parent w := by
  cases q with
  | none => rfl
  | some g => by_cases h : x = T.child s g <;> simp [replaceChild, h]

@[simp] theorem name_replaceChild : (T.replaceChild s q x y).name w = T.name w := by
  cases q with
  | none => rfl
  | some g => by_cases h : x = T.child s g <;> simp [replaceChild, h]

@[simp] theorem fresh_replaceChild : (T.replaceChild s q x y).fresh = T.fresh := by
  cases q with
  | none => rfl
  | some g => by_cases h : x = T.child s g <;> simp [replaceChild, h]

theorem child_replaceChild {r : Side} (hw : q ≠ some w) :
    (T.replaceChild s q x y).child r w = T.child r w := by
  cases q with
  | none => rfl
  | some g =>
      have hwg : w ≠ g := by
        rintro rfl
        exact hw rfl
      by_cases h : x = T.child s g <;> simp [replaceChild, h, hwg]

end ReplaceChild

theorem top_mem {p : TreePath Nat} {w : Nat} (h : p.top = some w) : w ∈ p.labels := by
  cases p with
  | nil => simp at h
  | cons f fs => simp_all [TreePath.labels]

/-- Another node in the hole. -/
theorem LinkedPath.setChild {fs : TreePath Nat} (h : T.LinkedPath x (f :: fs))
    (hnodup : (TreePath.labels (f :: fs)).Nodup) :
    (T.setChild f.side f.value y).LinkedPath y (f :: fs) := by
  obtain ⟨hv, hc, hp, -, hsib, hrest⟩ := h
  simp only [TreePath.labels, List.nodup_cons, List.mem_append, not_or] at hnodup
  have hsame : ∀ w, w ≠ f.value → SameLinks T (T.setChild f.side f.value y) w :=
    fun w hw => by simp [SameLinks, hw]
  refine ⟨hv, by simpa using hc, by simpa using hp, by simp, ?_, ?_⟩
  · rw [child_setChild, if_neg (by simp)]
    refine hsib.congr fun w hw => hsame w ?_
    rintro rfl
    exact hnodup.1.1 hw
  · refine hrest.congr rfl fun w hw => hsame w ?_
    rintro rfl
    exact hnodup.1.2 hw

theorem LinkedPath.replaceChild (h : T.LinkedPath x p) (hx : x ≠ nilSym)
    (hxp : x ∉ p.labels) (hnodup : p.labels.Nodup) :
    (T.replaceChild s p.top x y).LinkedPath y p := by
  cases p with
  | nil => rfl
  | cons f fs =>
      have hchild := h.2.2.2.1
      have hother : T.child f.side.other f.value ≠ x := by
        intro hsame
        have hsib := h.2.2.2.2.1
        rw [hsame] at hsib
        simp only [TreePath.labels, List.mem_cons, List.mem_append, not_or] at hxp
        exact hxp.2.1 (hsib.mem hx)
      have heq : T.replaceChild s (some f.value) x y = T.setChild f.side f.value y := by
        by_cases hs : s = f.side
        · rw [SymbolTree.replaceChild, hs, if_pos hchild.symm]
        · have hs' := Side.eq_other_of_ne hs
          rw [SymbolTree.replaceChild, hs', if_neg hother.symm, Side.other_other]
      rw [TreePath.top_cons, heq]
      exact h.setChild hnodup

section Rotate

variable (T : SymbolTree) (s : Side) (x y : Nat)

@[simp] theorem color_rotate : (T.rotate s x).color y = T.color y := by
  simp [rotate]

@[simp] theorem name_rotate : (T.rotate s x).name y = T.name y := by
  simp [rotate]

@[simp] theorem fresh_rotate : (T.rotate s x).fresh = T.fresh := by
  simp [rotate]

@[simp] theorem parent_nilSym_rotate : (T.rotate s x).parent nilSym = T.parent nilSym := by
  have hne : ∀ z : Nat, ¬(nilSym = z ∧ z ≠ nilSym) := by
    rintro z ⟨rfl, hz⟩
    exact hz rfl
  simp only [rotate, parent_setNodeParent, parent_setChild, parent_replaceChild, if_neg (hne _)]

end Rotate

namespace At

/-- Going down to a child, and up again. -/
theorem cons_iff {fs : TreePath Nat} :
    T.At (f :: fs) x t ↔ T.At fs f.value (f.plug t) ∧ T.child f.side f.value = x := by
  have hperm := TreePath.plug_perm f fs t
  constructor
  · intro h
    obtain ⟨hv, hc, hp, hx, hsib, hrest⟩ := h.path
    refine ⟨⟨hrest, ?_, hperm.nodup_iff.2 h.nodup, ?_, h.leaf⟩, hx⟩
    · exact linked_fork.2 ⟨rfl, hv, hc, hp, hx.symm ▸ h.tree, hsib⟩
    · exact fun y hy => h.bound y (hperm.mem_iff.1 hy)
  · rintro ⟨h, rfl⟩
    obtain ⟨-, hv, hc, hp, ha, hb⟩ := linked_fork.1 h.tree
    refine ⟨⟨hv, hc, hp, rfl, hb, h.path⟩, ha, hperm.nodup_iff.1 h.nodup, ?_, h.leaf⟩
    exact fun y hy => h.bound y (hperm.mem_iff.2 hy)

theorem down (h : T.At p x (fork s c a v b)) :
    T.At (⟨s, c, v, b⟩ :: p) (T.child s v) a := by
  have hx := (linked_fork.1 h.tree).1
  exact cons_iff.2 ⟨hx ▸ h, rfl⟩

theorem up {fs : TreePath Nat} (h : T.At (f :: fs) x t) : T.At fs f.value (f.plug t) :=
  (cons_iff.1 h).1

theorem up_all (h : T.At p x t) : ∃ y, T.At [] y (p.fill t) := by
  induction p generalizing x t with
  | nil => exact ⟨x, h⟩
  | cons f fs ih => exact ih h.up

theorem recolor (h : T.At p x (fork s c a x b)) (d : Color) :
    (T.setColor x d).At p x (fork s d a x b) := by
  have hlist : (fork s d a x b).toList = (fork s c a x b).toList := by
    rw [toList_fork, toList_fork]
  obtain ⟨-, hv, -, hp, ha, hb⟩ := linked_fork.1 h.tree
  have hnodup := h.nodup
  rw [toList_fork,
    ((TreePath.around_perm s a.toList x b.toList).append_right _).nodup_iff] at hnodup
  simp only [List.append_assoc, List.cons_append, List.nodup_append, List.nodup_cons,
    List.mem_append, List.mem_cons, not_or] at hnodup
  have hsame : ∀ y, y ≠ x → SameLinks T (T.setColor x d) y := fun y hy => by
    simp [SameLinks, hy]
  refine ⟨h.path.congr rfl fun y hy => hsame y ?_, ?_, hlist ▸ h.nodup, ?_, ?_⟩
  · rintro rfl
    exact hnodup.2.1.1.2 hy
  · refine linked_fork.2 ⟨rfl, hv, by simp, by simpa using hp, ?_, ?_⟩
    · rw [child_setColor]
      refine ha.congr fun y hy => hsame y ?_
      exact hnodup.2.2 y hy x (.inl rfl)
    · rw [child_setColor]
      refine hb.congr fun y hy => hsame y ?_
      rintro rfl
      exact hnodup.2.1.1.1 hy
  · rw [hlist]
    exact h.bound
  · rw [color_setColor, if_neg hv.symm]
    exact h.leaf

theorem down_fork {d : Color} {r : Side} {e : ColoredTree Nat}
    (h : T.At p x (fork s c (fork r d a y b) v e)) :
    T.At (⟨s, c, v, e⟩ :: p) y (fork r d a y b) := by
  have hdown := h.down
  have hy := (linked_fork.1 hdown.tree).1
  exact hy ▸ hdown

theorem recolor_child {d : Color} {r : Side} {e : ColoredTree Nat}
    (h : T.At p x (fork s c (fork r d a y b) x e)) (k : Color) :
    (T.setColor y k).At p x (fork s c (fork r k a y b) x e) :=
  (h.down_fork.recolor k).up

theorem recolor_sibling {d : Color} {r : Side} {e : ColoredTree Nat}
    (h : T.At p x (fork s c e x (fork r d a y b))) (k : Color) :
    (T.setColor y k).At p x (fork s c e x (fork r k a y b)) := by
  rw [← fork_other] at h ⊢
  exact h.recolor_child k

theorem rotate {d : Color} {e : ColoredTree Nat}
    (h : T.At p x (fork s c a x (fork s d b y e))) :
    (T.rotate s x).At p y (fork s d (fork s c a x b) y e) := by
  have hlist : (fork s d (fork s c a x b) y e).toList =
      (fork s c a x (fork s d b y e)).toList := by
    simp only [toList_fork, around_assoc]
  obtain ⟨-, hx, hc, hp, ha, hy⟩ := linked_fork.1 h.tree
  obtain ⟨hy, hy0, hd, -, hb, he⟩ := linked_fork.1 hy
  have hnodup : (a.toList ++ x :: (b.toList ++ y :: (e.toList ++ p.labels))).Nodup := by
    have hperm : (fork s c a x (fork s d b y e)).toList.Perm
        (a.toList ++ x :: (b.toList ++ y :: e.toList)) := by
      rw [toList_fork, toList_fork]
      refine (TreePath.around_perm ..).trans (List.Perm.append_left _ (List.Perm.cons _ ?_))
      exact TreePath.around_perm ..
    simpa using (hperm.append_right p.labels).nodup_iff.1 h.nodup
  simp only [List.nodup_append, List.nodup_cons, List.mem_append, List.mem_cons, not_or,
    ne_eq] at hnodup
  obtain ⟨-, ⟨⟨hxb, hxy, hxe, hxp⟩, hbnodup, ⟨⟨hye, hyp⟩, -, hpnodup, hep⟩, hbe⟩, hax⟩ := hnodup
  -- the child of `y` that `x` takes over
  have hz : T.child s y ≠ nilSym → T.child s y ∈ b.toList := hb.mem
  have hzx : x ≠ T.child s y := by
    intro hzx
    exact hxb (hzx ▸ hz (hzx ▸ hx))
  have hzy : y ≠ T.child s y := by
    intro hzy
    exact (hbe y (hzy.symm ▸ hz (hzy ▸ hy0)) y (.inl rfl)) rfl
  have htop : ∀ w, w ∉ p.labels → p.top ≠ some w := fun w hw htop => hw (top_mem htop)
  have hchild : ∀ r w, w ∉ p.labels → (T.rotate s x).child r w =
      if w = y ∧ r = s then x
      else if w = x ∧ r = s.other then T.child s y else T.child r w := by
    intro r w hw
    have hwtop := htop w hw
    simp [SymbolTree.rotate, hy, hp, hzx, hxy, child_replaceChild, hwtop]
  have hparent : ∀ w, (T.rotate s x).parent w =
      if w = x then some y
      else if w = y then p.top
      else if w = T.child s y ∧ T.child s y ≠ nilSym then some x else T.parent w := by
    intro w
    simp [SymbolTree.rotate, hy, hp, hzx, hxy, hx, hy0]
  have hsame : ∀ w, w ∉ p.labels → w ≠ x → w ≠ y → (T.child s y ≠ nilSym → w ≠ T.child s y) →
      SameLinks T (T.rotate s x) w := by
    intro w hw hwx hwy hwz
    refine ⟨by simp, ?_, fun r => ?_⟩
    · rw [hparent, if_neg hwx, if_neg hwy, if_neg fun hz => hwz hz.2 hz.1]
    · rw [hchild r w hw, if_neg fun h => hwy h.1, if_neg fun h => hwx h.1]
  have ha' : (T.rotate s x).Linked (some x) (T.child s x) a := by
    refine ha.congr fun w hw => hsame w ?_ ?_ ?_ fun hz0 => ?_
    · exact fun hwp => hax w hw w (by simp [hwp]) rfl
    · exact fun hwx => hax w hw x (by simp) hwx
    · exact fun hwy => hax w hw y (by simp) hwy
    · exact fun hwz => hax w hw _ (by simp [hz hz0]) hwz
  have hb' : (T.rotate s x).Linked (some x) (T.child s y) b := by
    have hout : ∀ w ∈ b.toList, w ∉ p.labels ∧ w ≠ x ∧ w ≠ y := by
      intro w hw
      refine ⟨fun hwp => hbe w hw w (by simp [hwp]) rfl, ?_, fun hwy => hbe w hw y (by simp) hwy⟩
      rintro rfl
      exact hxb hw
    refine hb.hang (fun hz0 => ⟨by simp, ?_, fun r => ?_⟩) (fun w hw hwz => ?_) hbnodup
    · obtain ⟨-, hzx, hzy⟩ := hout _ (hz hz0)
      rw [hparent, if_neg hzx, if_neg hzy, if_pos ⟨rfl, hz0⟩]
    · obtain ⟨hzp, hzx, hzy⟩ := hout _ (hz hz0)
      rw [hchild r _ hzp, if_neg fun h => hzy h.1, if_neg fun h => hzx h.1]
    · obtain ⟨hwp, hwx, hwy⟩ := hout w hw
      exact hsame w hwp hwx hwy fun _ => hwz
  have he' : (T.rotate s x).Linked (some y) (T.child s.other y) e := by
    refine he.congr fun w hw => hsame w ?_ ?_ ?_ fun hz0 => ?_
    · exact fun hwp => hep w hw w hwp rfl
    · rintro rfl
      exact hxe hw
    · rintro rfl
      exact hye hw
    · rintro rfl
      exact hbe _ (hz hz0) _ (by simp [hw]) rfl
  refine ⟨?_, ?_, hlist ▸ h.nodup, ?_, by simpa using h.leaf⟩
  · let T₁ := ((T.setChild s.other x (T.child s y)).setNodeParent (T.child s y)
      (some x)).setNodeParent y p.top
    have heq : T.rotate s x =
        ((T₁.replaceChild s p.top x y).setChild s y x).setNodeParent x (some y) := by
      simp [SymbolTree.rotate, T₁, hy, hp, hzx, hxy]
    have hlabel : ∀ w ∈ p.labels, w ≠ x ∧ w ≠ y ∧ (T.child s y ≠ nilSym → w ≠ T.child s y) := by
      intro w hw
      refine ⟨?_, ?_, fun hz0 hwz => ?_⟩
      · rintro rfl
        exact hxp hw
      · rintro rfl
        exact hyp hw
      · exact hbe _ (hz hz0) w (by simp [hw]) hwz.symm
    have hT₁ : T₁.LinkedPath x p := by
      refine h.path.congr (by simp [T₁]) fun w hw => ?_
      obtain ⟨hwx, hwy, hwz⟩ := hlabel w hw
      refine ⟨by simp [T₁], ?_, fun r => by simp [T₁, hwx]⟩
      simp only [T₁, parent_setNodeParent, parent_setChild, hwy, false_and, if_false]
      exact if_neg fun h => hwz h.2 h.1
    rw [heq]
    refine (hT₁.replaceChild (s := s) hx hxp hpnodup).congr (by simp) fun w hw => ?_
    obtain ⟨hwx, hwy, -⟩ := hlabel w hw
    exact ⟨by simp, by simp [hwx], fun r => by simp [hwy]⟩
  · refine linked_fork.2 ⟨rfl, hy0, by simpa using hd, ?_, ?_, ?_⟩
    · rw [hparent, if_neg (Ne.symm hxy), if_pos rfl]
    · refine linked_fork.2 ⟨?_, hx, by simpa using hc, ?_, ?_, ?_⟩
      · rw [hchild s y hyp, if_pos ⟨rfl, rfl⟩]
      · rw [hparent, if_pos rfl]
      · rw [hchild s x hxp, if_neg fun h => hxy h.1, if_neg (by simp)]
        exact ha'
      · rw [hchild _ x hxp, if_neg fun h => hxy h.1, if_pos ⟨rfl, rfl⟩]
        exact hb'
    · rw [hchild _ y hyp, if_neg (by simp), if_neg fun h => hxy h.1.symm]
      exact he'
  · rw [hlist, fresh_rotate]
    exact h.bound

end At

end SymbolTree

end NewLispNeo
