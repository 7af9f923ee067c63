/-
`deleteFixup` makes a tree balanced that lost a black node.
-/
import NewLispNeo.TreeInsert

namespace NewLispNeo

open RedBlack RedBlack.ColoredTree

namespace SymbolTree

variable {T U : SymbolTree} {p fs : TreePath Nat} {q : Option Nat} {x y v w : Nat}
  {t a b L R : ColoredTree Nat} {s : Side} {c d e : Color} {n fuel : Nat}

theorem At.root_some (h : T.At p x t) (hx : x ≠ nilSym ∨ p ≠ []) : ∃ r, T.root = some r := by
  cases p with
  | nil => exact ⟨x, h.root_eq (by simpa using hx)⟩
  | cons f fs =>
      obtain ⟨r, hr, -⟩ := h.root_ne
      exact ⟨r, hr⟩

/-- Down again to a tree that was there before. -/
theorem At.down_to (h : U.At p v (fork s c t v b)) (ht : T.Linked q x t) :
    U.At (⟨s, c, v, b⟩ :: p) x t := by
  have hdown := h.down
  rw [hdown.tree.root_unique ht] at hdown
  exact hdown

theorem Linked.ne_of_height (h : T.Linked q x t) (ht : RBBalanced t c (n + 1)) :
    x ≠ nilSym := by
  cases ht with
  | red => exact h.1 ▸ h.2.1
  | black => exact h.1 ▸ h.2.1

theorem Mends.of_at (h : T.At p x t) (ht : RBBalanced t c n) (hp : p.Holds d n)
    (hfit : c = .black ∨ d = .red) (hroot : p.RootBlack) (htop : p = [] → c = .black) :
    Mends T T (p.fill t).toList := by
  obtain ⟨y, hy⟩ := h.up_all
  obtain ⟨m, hm⟩ := hp.fill ht hfit hroot htop
  exact ⟨⟨y, _, m, hy, hm, rfl⟩, fun _ => rfl, rfl⟩

theorem deleteFixup_red (h : T.At p x (fork s .red a x b))
    (ht : RBBalanced (fork s .black a x b) .black n) (hp : p.Holds d n)
    (hroot : p.RootBlack) (hfuel : 0 < fuel) :
    ∃ U, deleteFixup fuel T x = some U ∧ Mends T U (p.fill (fork s .red a x b)).toList := by
  obtain ⟨k, rfl⟩ := Nat.exists_eq_add_of_lt hfuel
  obtain ⟨-, hx, hc, -⟩ := linked_fork.1 h.tree
  obtain ⟨r, hr⟩ := h.root_some (.inl hx)
  refine ⟨T.setColor x .black, by simp [deleteFixup, hr, hc], ?_⟩
  have hmends := Mends.of_at (h.recolor .black) ht hp (.inl rfl) hroot fun _ => rfl
  rw [toList_fill_congr p (t := fork s .red a x b) (by simp only [toList_fork])] at hmends
  exact hmends.congr (by simp) (by simp)

theorem deleteFixup_root (h : T.At [] x t) (ht : RBBalanced t c n) (hsome : T.root = some x)
    (hfuel : 0 < fuel) :
    ∃ U, deleteFixup fuel T x = some U ∧ Mends T U t.toList := by
  obtain ⟨k, rfl⟩ := Nat.exists_eq_add_of_lt hfuel
  exact ⟨T.setColor x .black, by simp [deleteFixup, hsome], h.mends ht⟩

/-- The end of `deleteFixup`: nothing is missing any more. -/
theorem deleteFixup_end (h : T.At p x t) (hx : x ≠ nilSym) (ht : RBBalanced t .black n)
    (hp : p.Holds d n) (hroot : p.RootBlack) (hfuel : 0 < fuel) :
    ∃ r, T.root = some r ∧
      ∃ U, deleteFixup fuel T r = some U ∧ Mends T U (p.fill t).toList := by
  obtain ⟨y, hy⟩ := h.up_all
  obtain ⟨m, hm⟩ := hp.fill ht (.inl rfl) hroot fun _ => rfl
  obtain ⟨r, hr⟩ := h.root_some (.inl hx)
  have hpath := hy.path
  simp only [LinkedPath, hr] at hpath
  obtain rfl : y = r := hpath.symm
  exact ⟨y, hr, deleteFixup_root hy hm hr hfuel⟩

/-- A red child of the sibling, the far one. -/
theorem borrow_far {r : Side}
    (h : T.At (⟨s, c, v, fork s .black a w (fork r .red L y R)⟩ :: fs) x t) :
    ((((T.setColor w c).setColor v .black).setColor y .black).rotate s v).At
      (⟨s, c, w, fork r .black L y R⟩ :: fs) v (fork s .black t v a) := by
  have hup : T.At fs v (fork s c t v (fork s .black a w (fork r .red L y R))) := h.up
  have hcolors := (hup.recolor_sibling c).recolor .black
  rw [← fork_other s .black] at hcolors
  have hfar := (hcolors.down_fork.recolor_sibling .black).up
  have hrotated : ((((T.setColor w c).setColor v .black).setColor y .black).rotate s v).At fs w
      (fork s c (fork s .black t v a) w (fork r .black L y R)) := by
    refine At.rotate ?_
    rw [← fork_other s .black]
    exact hfar
  exact hrotated.down_fork

/-- A red child of the sibling, the near one. -/
theorem borrow_near
    (h : T.At (⟨s, c, v, fork s .black (fork s .red L y R) w b⟩ :: fs) x t) :
    (((T.setColor y .black).setColor w .red).rotate s.other w).At
      (⟨s, c, v, fork s .black L y (fork s .red R w b)⟩ :: fs) x t := by
  have hup : T.At fs v (fork s.other c (fork s .black (fork s .red L y R) w b) v t) := by
    rw [fork_other]
    exact h.up
  have hcolors := (hup.down_fork.recolor_child .black).recolor .red
  rw [← fork_other s .red, ← fork_other s .black] at hcolors
  have hrotated := hcolors.rotate.up
  simp only [TreeFrame.plug, fork_other] at hrotated
  exact hrotated.down_to h.tree

/-- The far child of the sibling is red. -/
theorem borrow_far_eq {r : Side}
    (h : T.At (⟨s, c, v, fork s .black a w (fork r .red L y R)⟩ :: fs) x t) :
    T.child s.other v = w ∧ T.color v = c ∧ T.child s.other w = y ∧ T.color y = .red := by
  obtain ⟨-, hc, -, -, hsib, -⟩ := h.path
  obtain ⟨hw, -, -, -, -, hfar⟩ := linked_fork.1 hsib
  obtain ⟨hy, -, hred, -⟩ := linked_fork.1 hfar
  exact ⟨hw, hc, hy, hred⟩

/-- A red child of the sibling ends the loop. -/
theorem borrowSibling_spec (h : T.At (⟨s, c, v, fork s .black a w b⟩ :: fs) x t)
    (ha : RBBalanced a d n) (hb : RBBalanced b e n) (hred : ¬(d = .black ∧ e = .black)) :
    ∃ L z R k, (borrowSibling T s v).At (⟨s, c, z, R⟩ :: fs) v (fork s .black t v L) ∧
      RBBalanced L k n ∧ RBBalanced R .black (n + 1) ∧
      around s (around s t.toList v L.toList) z R.toList =
        around s t.toList v (around s a.toList w b.toList) := by
  cases e with
  | red =>
      obtain ⟨L, y, R, rfl⟩ := hb.eq_fork_red s
      obtain ⟨hw, hc, hy, hyc⟩ := borrow_far_eq h
      have heq : borrowSibling T s v =
          (((T.setColor w c).setColor v .black).setColor y .black).rotate s v := by
        simp [borrowSibling, hw, hc, hy, hyc]
      refine ⟨a, w, fork s .black L y R, d, heq ▸ borrow_far h, ha, ?_, ?_⟩
      · simpa using hb.blacken_red
      · simp only [toList_fork, around_assoc]
  | black =>
      cases d with
      | black => exact absurd ⟨rfl, rfl⟩ hred
      | red =>
          obtain ⟨L, y, R, rfl⟩ := ha.eq_fork_red s
          obtain ⟨-, hL, hR⟩ := rbBalanced_fork_red ha
          have hnear := borrow_near h
          obtain ⟨hw, hc, hy, hyc⟩ := borrow_far_eq hnear
          obtain ⟨-, -, -, -, hsib, -⟩ := h.path
          obtain ⟨hw₀, -, -, -, hnear₀, hfar₀⟩ := linked_fork.1 hsib
          have hy₀ := (linked_fork.1 hnear₀).1
          have hb₀ := hfar₀.color_eq h.leaf hb
          have heq : borrowSibling T s v =
              ((((((T.setColor y .black).setColor w .red).rotate s.other w).setColor y
                c).setColor v .black).setColor w .black).rotate s v := by
            simp [borrowSibling, hw₀, hy₀, hb₀, hw, hc, hy]
          refine ⟨L, y, fork s .black R w b, .black, heq ▸ borrow_far hnear, hL, ?_, ?_⟩
          · exact hR.fork_black hb
          · simp only [toList_fork, around_assoc]

/-- The sibling is black afterwards. -/
theorem raiseSibling_spec (h : T.At (⟨s, c, v, b⟩ :: fs) x t) (hb : RBBalanced b e (n + 1))
    (hp : TreePath.Holds (⟨s, c, v, b⟩ :: fs) d (n + 1))
    (hroot : TreePath.RootBlack (⟨s, c, v, b⟩ :: fs)) :
    ∃ c' d' b' fs', (raiseSibling T s v).At (⟨s, c', v, b'⟩ :: fs') x t ∧
      RBBalanced b' .black (n + 1) ∧ TreePath.Holds (⟨s, c', v, b'⟩ :: fs') d' (n + 1) ∧
      TreePath.RootBlack (⟨s, c', v, b'⟩ :: fs') ∧
      (TreePath.fill (⟨s, c', v, b'⟩ :: fs') t).toList =
        (TreePath.fill (⟨s, c, v, b⟩ :: fs) t).toList ∧ (c' = .red ∨ fs' = fs) := by
  have hsib : T.Linked (some v) (T.child s.other v) b := h.path.2.2.2.2.1
  have hcolor := hsib.color_eq h.leaf hb
  cases e with
  | black =>
      have heq : raiseSibling T s v = T := by
        simp [raiseSibling, hcolor]
      exact ⟨c, d, b, fs, heq.symm ▸ h, hb, hp, hroot, rfl, .inr rfl⟩
  | red =>
      obtain ⟨a, w, R, rfl⟩ := hb.eq_fork_red s
      obtain ⟨-, ha, hR⟩ := rbBalanced_fork_red hb
      have hw := (linked_fork.1 hsib).1
      cases hp with
      | red hc hblack hrest => exact absurd (rbBalanced_fork_red hblack).1 (by simp)
      | black hc hred hrest =>
          simp only at hc
          subst hc
          have heq : raiseSibling T s v =
              ((T.setColor w .black).setColor v .red).rotate s v := by
            rw [hw] at hcolor
            simp [raiseSibling, hw, hcolor]
          have hup : T.At fs v (fork s .black t v (fork s .red a w R)) := h.up
          have hresult := ((hup.recolor_sibling .black).recolor .red).rotate.down_fork
          refine ⟨.red, .black, a, ⟨s, .black, w, R⟩ :: fs, heq ▸ hresult.down_to h.tree, ha,
            .red rfl ha (.black rfl hR hrest), ?_, ?_, .inl rfl⟩
          · cases fs with
            | nil => rfl
            | cons f fs => exact hroot
          · have hlist : (fork s .black (fork s .red t v a) w R).toList =
                (fork s .black t v (fork s .red a w R)).toList := by
              simp only [toList_fork, around_assoc]
            exact toList_fill_congr fs hlist

@[simp] theorem name_raiseSibling : (raiseSibling T s v).name x = T.name x := by
  simp only [raiseSibling]
  split_ifs <;> simp

@[simp] theorem fresh_raiseSibling : (raiseSibling T s v).fresh = T.fresh := by
  simp only [raiseSibling]
  split_ifs <;> simp

@[simp] theorem parent_nilSym_raiseSibling :
    (raiseSibling T s v).parent nilSym = T.parent nilSym := by
  simp only [raiseSibling]
  split_ifs <;> simp

@[simp] theorem name_borrowSibling : (borrowSibling T s v).name x = T.name x := by
  simp only [borrowSibling]
  split_ifs <;> simp

@[simp] theorem fresh_borrowSibling : (borrowSibling T s v).fresh = T.fresh := by
  simp only [borrowSibling]
  split_ifs <;> simp

/-- The tree without a black node is mended from the hole. -/
theorem deleteFixup_spec (h : T.At p x t) (ht : RBBalanced t c n) (hp : p.Holds d (n + 1))
    (hroot : p.RootBlack) (hparent : T.parent x = p.top) (hsome : T.root ≠ none)
    (hfuel : p.length < fuel) :
    ∃ U, deleteFixup fuel T x = some U ∧ Mends T U (p.fill t).toList := by
  induction fuel generalizing T p x t c n d with
  | zero => omega
  | succ fuel ih =>
      cases c with
      | red =>
          obtain ⟨a, x', b, rfl⟩ := ht.eq_fork_red .left
          obtain rfl := (linked_fork.1 h.tree).1
          have ht' := ht.blacken_red
          rw [blacken_fork] at ht'
          exact deleteFixup_red h ht' hp hroot (by omega)
      | black =>
          cases p with
          | nil =>
              obtain ⟨r, hr⟩ := Option.ne_none_iff_exists'.1 hsome
              have hpath := h.path
              simp only [LinkedPath, hr] at hpath
              obtain rfl : x = r := hpath.symm
              exact deleteFixup_root h ht hr (by omega)
          | cons f fs =>
              obtain ⟨s, k, v, b⟩ := f
              have hshorter : fs.length < fuel := by simpa using hfuel
              obtain ⟨r, hr, hxr⟩ := h.root_ne
              have hxc := h.tree.color_eq h.leaf ht
              have hb : ∃ e, RBBalanced b e (n + 1) := by
                cases hp with
                | red _ hb _ => exact ⟨_, hb⟩
                | black _ hb _ => exact ⟨_, hb⟩
              obtain ⟨e, hb⟩ := hb
              have hside : sideOf T v x = s := by
                refine h.sideOf_eq ?_
                by_cases hx : x = nilSym
                · subst hx
                  exact Linked.ne_of_height h.path.2.2.2.2.1 hb
                · exact h.sibling_ne hx
              obtain ⟨k', d', b', fs', h', hb', hp', hroot', horder, hfs⟩ :=
                raiseSibling_spec h hb hp hroot
              obtain ⟨a, w, R, rfl⟩ := hb'.eq_fork s
              obtain ⟨m, d₁, e₁, hm, -, ha, hR⟩ := rbBalanced_fork_black hb'
              obtain rfl : n = m := by omega
              have hsib : (raiseSibling T s v).Linked (some v)
                  ((raiseSibling T s v).child s.other v) (fork s .black a w R) :=
                h'.path.2.2.2.2.1
              obtain ⟨hw, -, -, -, haTree, hRTree⟩ := linked_fork.1 hsib
              have hac := haTree.color_eq h'.leaf ha
              have hRc := hRTree.color_eq h'.leaf hR
              have hupper := h'.up
              simp only [TreeFrame.plug] at hupper
              rw [← horder]
              by_cases hblack : d₁ = .black ∧ e₁ = .black
              · obtain ⟨rfl, rfl⟩ := hblack
                have hT : deleteFixup (fuel + 1) T x =
                    deleteFixup fuel ((raiseSibling T s v).setColor w .red) v := by
                  simp [deleteFixup, hr, hxr, hxc, hparent, hside, hw, hac, hRc]
                have hnew := hupper.recolor_sibling .red
                have hlist : (fork s k' t v (fork s .red a w R)).toList =
                    (fork s k' t v (fork s .black a w R)).toList := by
                  simp only [toList_fork]
                have hmends : ∃ U, deleteFixup fuel ((raiseSibling T s v).setColor w .red) v =
                    some U ∧ Mends ((raiseSibling T s v).setColor w .red) U
                      (TreePath.fill fs' (fork s k' t v (fork s .red a w R))).toList := by
                  cases hp' with
                  | red hk _ hrest =>
                      simp only at hk
                      subst hk
                      exact deleteFixup_red hnew (ht.fork_black (ha.fork_red hR)) hrest
                        hroot'.tail (by omega)
                  | black hk _ hrest =>
                      simp only at hk
                      subst hk
                      obtain rfl := hfs.resolve_left (by simp)
                      have hv := (linked_fork.1 hnew.tree).2.1
                      refine ih hnew (ht.fork_black (ha.fork_red hR)) hrest hroot'.tail
                        (hnew.tree.parent_eq hv) ?_ hshorter
                      exact Option.ne_none_iff_exists'.2 (hnew.root_some (.inl hv))
                obtain ⟨U, hU, hmends⟩ := hmends
                rw [toList_fill_congr fs' hlist] at hmends
                exact ⟨U, hT.trans hU, hmends.congr (by simp) (by simp)⟩
              · have hT : deleteFixup (fuel + 1) T x =
                    (borrowSibling (raiseSibling T s v) s v).root.bind
                      (deleteFixup fuel (borrowSibling (raiseSibling T s v) s v)) := by
                  simp [deleteFixup, hr, hxr, hxc, hparent, hside, hw, hac, hRc, hblack]
                obtain ⟨L, z, R', k, hnew, hL, hR', hlist⟩ :=
                  borrowSibling_spec h' ha hR hblack
                have hholds : TreePath.Holds (⟨s, k', z, R'⟩ :: fs') d' (n + 1) := by
                  cases hp' with
                  | red hk _ hrest => exact .red hk hR' hrest
                  | black hk _ hrest => exact .black hk hR' hrest
                have hv := (linked_fork.1 hnew.tree).2.1
                obtain ⟨r', hr', U, hU, hmends⟩ := deleteFixup_end hnew hv (ht.fork_black hL)
                  hholds (by cases fs' <;> exact hroot') (Nat.zero_lt_of_lt hshorter)
                refine ⟨U, ?_, ?_⟩
                · rw [hT, hr']
                  exact hU
                · have horder' : (TreePath.fill (⟨s, k', z, R'⟩ :: fs')
                      (fork s .black t v L)).toList =
                      (TreePath.fill (⟨s, k', v, fork s .black a w R⟩ :: fs') t).toList := by
                    have hsame : (fork s k' (fork s .black t v L) z R').toList =
                        (fork s k' t v (fork s .black a w R)).toList := by
                      simp only [toList_fork]
                      exact hlist
                    exact toList_fill_congr fs' hsame
                  rw [horder'] at hmends
                  exact hmends.congr (by simp) (by simp)

end SymbolTree

end NewLispNeo
