/-
`insertFixup` makes a tree with a red node under a red node balanced.
-/
import NewLispNeo.TreeLinks

namespace NewLispNeo

open RedBlack RedBlack.ColoredTree

namespace SymbolTree

/-- A balanced tree with the nodes in this order, and with the names of before. -/
structure Mends (T U : SymbolTree) (order : List Nat) : Prop where
  tree : ∃ x t n, U.At [] x t ∧ RBBalanced t .black n ∧ t.toList = order
  name : ∀ x, U.name x = T.name x
  fresh : U.fresh = T.fresh

variable {T U V : SymbolTree} {p fs : TreePath Nat} {q : Option Nat} {x y g v : Nat}
  {t a b X Y Z : ColoredTree Nat} {s : Side} {c d : Color} {f : TreeFrame Nat} {n fuel : Nat}
  {order : List Nat}

theorem Mends.congr (h : Mends U V order) (hname : ∀ x, U.name x = T.name x)
    (hfresh : U.fresh = T.fresh) : Mends T V order :=
  ⟨h.tree, fun x => (h.name x).trans (hname x), h.fresh.trans hfresh⟩

theorem Linked.color_eq (h : T.Linked q x t) (hleaf : T.color nilSym = .black)
    (ht : RBBalanced t c n) : T.color x = c := by
  cases ht with
  | nil => exact h ▸ hleaf
  | red => exact h.1 ▸ h.2.2.1
  | black => exact h.1 ▸ h.2.2.1

theorem Linked.parent_eq (h : T.Linked q x t) (hx : x ≠ nilSym) : T.parent x = q := by
  cases t with
  | nil => exact absurd h hx
  | node => exact h.1 ▸ h.2.2.2.1

theorem Linked.ne_of_red (h : T.Linked q x t) (ht : RBBalanced t .red n) : x ≠ nilSym := by
  cases ht with
  | red => exact h.1 ▸ h.2.1

/-- A tree knows its root. -/
theorem Linked.root_unique {r : Option Nat} (h : T.Linked q x t) (h' : U.Linked r y t) :
    x = y := by
  cases t with
  | nil => exact Eq.trans h (Eq.symm h')
  | node => exact h.1.trans h'.1.symm

theorem At.root_eq (h : T.At [] x t) (hx : x ≠ nilSym) : T.root = some x := by
  have hroot := h.path
  unfold LinkedPath at hroot
  cases hr : T.root with
  | none =>
      rw [hr] at hroot
      exact absurd hroot.symm hx
  | some r =>
      rw [hr] at hroot
      exact congrArg some hroot

theorem LinkedPath.root_mem (h : T.LinkedPath x (f :: fs)) :
    ∃ r, T.root = some r ∧ r ∈ TreePath.labels (f :: fs) := by
  induction fs generalizing x f with
  | nil =>
      obtain ⟨hv, -, -, -, -, hroot⟩ := h
      cases hr : T.root with
      | none =>
          simp only [LinkedPath, hr] at hroot
          exact absurd hroot.symm hv
      | some r =>
          simp only [LinkedPath, hr] at hroot
          exact ⟨r, rfl, by simp [TreePath.labels, ← hroot]⟩
  | cons g gs ih =>
      obtain ⟨-, -, -, -, -, hrest⟩ := h
      obtain ⟨r, hr, hmem⟩ := ih hrest
      refine ⟨r, hr, ?_⟩
      rw [TreePath.labels]
      simp [hmem]

/-- Below a node, the root is another node. -/
theorem At.root_ne (h : T.At (f :: fs) x t) : ∃ r, T.root = some r ∧ x ≠ r := by
  obtain ⟨r, hr, hmem⟩ := h.path.root_mem
  refine ⟨r, hr, ?_⟩
  rintro rfl
  have hx := h.path.ne_nilSym hmem
  exact (List.nodup_append.1 h.nodup).2.2 _ (h.tree.mem hx) _ hmem rfl

theorem At.sideOf_eq (h : T.At (f :: fs) x t) (hne : T.child f.side.other f.value ≠ x) :
    sideOf T f.value x = f.side := by
  have hchild := h.path.2.2.2.1
  unfold sideOf
  cases hs : f.side with
  | left =>
      rw [hs] at hchild
      rw [if_pos hchild.symm]
  | right =>
      rw [hs] at hne
      rw [if_neg fun hx => hne hx.symm]

theorem At.sibling_ne (h : T.At (f :: fs) x t) (hx : x ≠ nilSym) :
    T.child f.side.other f.value ≠ x := by
  intro hsame
  have hsib := h.path.2.2.2.2.1
  rw [hsame] at hsib
  refine (List.nodup_append.1 h.nodup).2.2 _ (h.tree.mem hx) x ?_ rfl
  simp [TreePath.labels, hsib.mem hx]

/-- The root may be made black. -/
theorem At.mends (h : T.At [] x t) (ht : RBBalanced t c n) :
    Mends T (T.setColor x .black) t.toList := by
  refine ⟨?_, by simp, rfl⟩
  cases ht with
  | nil =>
      have hx : x = nilSym := h.tree
      refine ⟨x, .nil, 0, ⟨h.path, h.tree, h.nodup, h.bound, ?_⟩, .nil, rfl⟩
      simp [hx]
  | @red a b v n ha hb =>
      obtain rfl : x = v := h.tree.1
      exact ⟨x, _, _, At.recolor (s := .left) h .black, .black ha hb, rfl⟩
  | @black a b v _ _ n ha hb =>
      obtain rfl : x = v := h.tree.1
      exact ⟨x, _, _, At.recolor (s := .left) h .black, .black ha hb, rfl⟩

theorem insertFixup_root (h : T.At [] x t) (ht : RBBalanced t .red n) (hfuel : 0 < fuel) :
    ∃ U, insertFixup fuel T x = some U ∧ Mends T U t.toList := by
  obtain ⟨k, rfl⟩ := Nat.exists_eq_add_of_lt hfuel
  have hroot := h.root_eq (h.tree.ne_of_red ht)
  refine ⟨_, ?_, h.mends ht⟩
  simp [insertFixup, hroot]

theorem insertFixup_black (h : T.At (f :: fs) x t) (ht : RBBalanced t .red n)
    (hp : TreePath.Holds (f :: fs) .red n) (hroot : TreePath.RootBlack (f :: fs))
    (hcolor : f.color = .black) (hfuel : 0 < fuel) :
    ∃ U, insertFixup fuel T x = some U ∧ Mends T U (TreePath.fill (f :: fs) t).toList := by
  obtain ⟨k, rfl⟩ := Nat.exists_eq_add_of_lt hfuel
  obtain ⟨r, hr, hxr⟩ := h.root_ne
  have hx := h.tree.ne_of_red ht
  obtain ⟨y, hy⟩ := h.up_all
  have hyr : y = r := by
    have hpath := hy.path
    simp only [LinkedPath, hr] at hpath
    exact hpath.symm
  obtain ⟨m, hm⟩ := hp.fill ht (.inr rfl) hroot (by simp)
  refine ⟨T.setColor r .black, ?_, hyr ▸ hy.mends hm⟩
  have hfc : T.color f.value = .black := h.path.2.1.trans hcolor
  simp [insertFixup, hr, h.tree.parent_eq hx, hfc]

theorem toList_fill_congr (p : TreePath Nat) {t t' : ColoredTree Nat} (h : t'.toList = t.toList) :
    (p.fill t').toList = (p.fill t).toList := by
  rw [TreePath.toList_fill, TreePath.toList_fill, h]

/-- The last rotation: the red child of the grandparent takes its place. -/
theorem insertFixup_outer (h : T.At p g (fork s .black (fork s .red X v Y) g Z))
    (hX : RBBalanced X .red n) (hY : RBBalanced Y .black n) (hZ : RBBalanced Z .black n)
    (hp : p.Holds d (n + 1)) (hroot : p.RootBlack) (hfuel : 0 < fuel) :
    ∃ U, insertFixup fuel
        (((T.setColor v .black).setColor g .red).rotate s.other g) (T.child s v) = some U ∧
      Mends T U (p.fill (fork s .black (fork s .red X v Y) g Z)).toList := by
  have hblack := (h.recolor_child .black).recolor .red
  rw [← fork_other, ← fork_other s .black] at hblack
  have hrotated := hblack.rotate
  rw [fork_other, fork_other] at hrotated
  have hX' := hrotated.down
  have hchild : (((T.setColor v .black).setColor g .red).rotate s.other g).child s v =
      T.child s v := hX'.tree.root_unique h.down.down.tree
  rw [hchild] at hX'
  have hholds : TreePath.Holds (⟨s, .black, v, fork s .red Y g Z⟩ :: p) .red n :=
    .black rfl (hY.fork_red hZ) hp
  have hblackRoot : TreePath.RootBlack (⟨s, .black, v, fork s .red Y g Z⟩ :: p) := by
    cases p with
    | nil => rfl
    | cons f fs => exact hroot
  obtain ⟨U, hU, hmends⟩ := insertFixup_black hX' hX hholds hblackRoot rfl hfuel
  refine ⟨U, hU, ?_⟩
  have horder : TreePath.fill (⟨s, .black, v, fork s .red Y g Z⟩ :: p) X =
      p.fill (fork s .black X v (fork s .red Y g Z)) := rfl
  rw [horder, toList_fill_congr p (t := fork s .black (fork s .red X v Y) g Z)] at hmends
  · exact hmends.congr (by simp) (by simp)
  · simp only [toList_fork, around_assoc]

theorem insertFixup_spec (h : T.At p x t) (ht : RBBalanced t .red n) (hp : p.Holds c n)
    (hroot : p.RootBlack) (hfuel : p.length < fuel) :
    ∃ U, insertFixup fuel T x = some U ∧ Mends T U (p.fill t).toList := by
  induction fuel generalizing T p x t c n with
  | zero => omega
  | succ fuel ih =>
      cases hp with
      | root => exact insertFixup_root h ht (by omega)
      | black hcolor hsib hrest =>
          exact insertFixup_black h ht (.black hcolor hsib hrest) hroot hcolor (by omega)
      | @red f fs _ hcolor hsib hrest =>
          cases hrest with
          | root => exact absurd (hcolor.symm.trans hroot) (by simp)
          | @black g gs d e _ hg huncle hrest =>
              obtain ⟨r, hr, hxr⟩ := h.root_ne
              obtain ⟨fside, fcolor, fv, fsib⟩ := f
              obtain ⟨s, gcolor, gv, gsib⟩ := g
              simp only at hcolor hsib hg huncle
              subst hcolor hg
              have hshorter : gs.length < fuel := by
                simp only [List.length_cons] at hfuel
                omega
              have hx := h.tree.ne_of_red ht
              have hup := h.up
              have hfv := h.path.1
              have hparent : T.parent x = some fv := h.tree.parent_eq hx
              have hfc : T.color fv = .red := h.path.2.1
              have hgrand : T.parent fv = some gv := h.path.2.2.1
              have hside : sideOf T gv fv = s := hup.sideOf_eq (hup.sibling_ne hfv)
              have huncleTree : T.Linked (some gv) (T.child s.other gv) gsib :=
                hup.path.2.2.2.2.1
              have hcolor : T.color (T.child s.other gv) = d :=
                huncleTree.color_eq h.leaf huncle
              have hupup : T.At gs gv
                  (fork s .black (fork fside .red t fv fsib) gv gsib) := hup.up
              cases d with
              | red =>
                  obtain ⟨u, w, z, rfl⟩ := huncle.eq_fork_red .left
                  have hy : T.child s.other gv = w :=
                    (linked_fork.1 huncleTree).1
                  rw [hy] at hcolor
                  have hnew := ((hupup.recolor_child .black).recolor_sibling .black).recolor .red
                  have hT : insertFixup (fuel + 1) T x = insertFixup fuel
                      (((T.setColor fv .black).setColor w .black).setColor gv .red) gv := by
                    simp [insertFixup, hr, hxr, hparent, hfc, hgrand, hside, hcolor, hy]
                  have huncle' := huncle.blacken_red
                  rw [blacken_fork] at huncle'
                  obtain ⟨U, hU, hmends⟩ := ih hnew ((ht.fork_black hsib).fork_red huncle')
                    hrest hroot.tail.tail hshorter
                  refine ⟨U, hT.trans hU, ?_⟩
                  have horder : TreePath.fill (⟨fside, .red, fv, fsib⟩ ::
                      ⟨s, .black, gv, fork .left .red u w z⟩ :: gs) t =
                      gs.fill (fork s .black (fork fside .red t fv fsib) gv
                        (fork .left .red u w z)) := rfl
                  rw [toList_fill_congr gs (t := fork s .black (fork fside .red t fv fsib) gv
                    (fork .left .red u w z)) (by simp only [toList_fork]), ← horder] at hmends
                  exact hmends.congr (by simp) (by simp)
              | black =>
                  by_cases hsame : fside = s
                  · subst hsame
                    have hchild : T.child fside fv = x := h.path.2.2.2.1
                    have hother : T.child fside.other fv ≠ x := h.sibling_ne hx
                    have hT : insertFixup (fuel + 1) T x = insertFixup fuel
                        (((T.setColor fv .black).setColor gv .red).rotate fside.other gv) x := by
                      simp [insertFixup, hr, hxr, hparent, hfc, hgrand, hside, hcolor,
                        hother.symm]
                    obtain ⟨U, hU, hmends⟩ := insertFixup_outer hupup ht hsib huncle
                      hrest hroot.tail.tail (Nat.zero_lt_of_lt hshorter)
                    rw [hchild] at hU
                    exact ⟨U, hT.trans hU, hmends⟩
                  · obtain rfl := Side.eq_other_of_ne hsame
                    obtain ⟨a, x', b, rfl⟩ := ht.eq_fork_red s
                    obtain ⟨-, ha, hb⟩ := rbBalanced_fork_red ht
                    obtain rfl := (linked_fork.1 h.tree).1
                    have hchild : T.child s.other fv = x := h.path.2.2.2.1
                    have hfather : T.At (⟨s, .black, gv, gsib⟩ :: gs) fv
                        (fork s .red fsib fv (fork s .red a x b)) := by
                      rw [← fork_other]
                      exact hup
                    have hinner := hfather.rotate
                    obtain ⟨-, -, -, hgrand', hfatherTree, -⟩ := linked_fork.1 hinner.tree
                    obtain ⟨hfv', -, -, hparent', -, -⟩ := linked_fork.1 hfatherTree
                    rw [TreePath.top_cons] at hgrand'
                    obtain ⟨U, hU, hmends⟩ := insertFixup_outer hinner.up
                      (hsib.fork_red ha) hb huncle hrest hroot.tail.tail
                      (Nat.zero_lt_of_lt hshorter)
                    have hT : insertFixup (fuel + 1) T x = insertFixup fuel
                        ((((T.rotate s fv).setColor x .black).setColor gv .red).rotate
                          s.other gv) fv := by
                      simp [insertFixup, hr, hxr, hparent, hfc, hgrand, hside, hcolor, hchild,
                        hparent', hgrand']
                    rw [hfv'] at hU
                    refine ⟨U, hT.trans hU, ?_⟩
                    have horder : TreePath.fill (⟨s.other, .red, fv, fsib⟩ ::
                        ⟨s, .black, gv, gsib⟩ :: gs) (fork s .red a x b) =
                        gs.fill (fork s .black (fork s.other .red (fork s .red a x b)
                          fv fsib) gv gsib) := rfl
                    rw [horder, ← toList_fill_congr gs (t := fork s .black (fork s.other .red
                      (fork s .red a x b) fv fsib) gv gsib)] 
                    · exact hmends.congr (by simp) (by simp)
                    · simp only [toList_fork, around_other, around_assoc]

end SymbolTree

end NewLispNeo
