/-
`deleteSymbol` on a balanced search tree.
-/
import NewLispNeo.SymbolCalls

namespace NewLispNeo

open RedBlack RedBlack.ColoredTree

namespace SymbolTree

variable {T U : SymbolTree} {p q fs : TreePath Nat} {x y z v : Nat} {t l r : ColoredTree Nat}
  {b : UInt8} {key copy : CString} {c d : Color} {s : Side} {n fuel : Nat} {order : List Nat}

attribute [local simp] unchain in
theorem parent_unchain :
    (unchain T y x).parent v = if v = x then T.parent y else T.parent v := by
  simp

@[simp] theorem color_unchain : (unchain T y x).color v = T.color v := by
  simp [unchain]

@[simp] theorem name_unchain : (unchain T y x).name v = T.name v := by
  simp [unchain]

@[simp] theorem fresh_unchain : (unchain T y x).fresh = T.fresh := by
  simp [unchain]

/-- The only child of a node takes its place. -/
theorem At.unchain_child (h : T.At p y (fork s c t y .nil)) :
    (unchain T y (T.child s y)).At p (T.child s y) t := by
  obtain ⟨-, hy, -, hparent, ht, -⟩ := linked_fork.1 h.tree
  have hperm : (fork s c t y .nil).toList.Perm (y :: t.toList) := by
    rw [toList_fork]
    exact (TreePath.around_perm ..).trans (List.perm_append_singleton y _)
  have hlist := hperm.append_right p.labels
  have hnodup := hlist.nodup_iff.1 h.nodup
  rw [List.cons_append, List.nodup_cons] at hnodup
  obtain ⟨hyt, hnodup⟩ := hnodup
  rw [List.mem_append, not_or] at hyt
  have hout := (List.nodup_append.1 hnodup).2.2
  have hx : T.child s y ≠ nilSym → T.child s y ∈ t.toList := ht.mem
  have hyx : y ≠ T.child s y := by
    intro hyx
    exact hyt.1 (hyx.symm ▸ hx (hyx ▸ hy))
  -- the links of the nodes above the hole
  have hpath : (T.setParent (T.child s y) p.top).LinkedPath y p := by
    refine h.path.congr rfl fun w hw => ⟨by simp, ?_, by simp⟩
    rw [parent_setParent, if_neg]
    rintro rfl
    exact hout _ (hx (h.path.ne_nilSym hw)) _ hw rfl
  have heq : unchain T y (T.child s y) =
      (T.setParent (T.child s y) p.top).replaceChild .left p.top y (T.child s y) := by
    simp [unchain, hparent, hyx]
  have hchild : ∀ w ∈ t.toList, ∀ r,
      (unchain T y (T.child s y)).child r w = T.child r w := by
    intro w hw r
    rw [heq, child_replaceChild, child_setParent]
    intro htop
    exact hout w hw w (top_mem htop) rfl
  refine ⟨?_, ?_, hnodup, fun w hw => ?_, by simpa using h.leaf⟩
  · rw [heq]
    exact hpath.replaceChild hy hyt.2 (List.nodup_append.1 hnodup).2.1
  · refine ht.hang (fun hx0 => ⟨by simp, ?_, hchild _ (hx hx0)⟩) (fun w hw hwx => ?_)
      (List.nodup_append.1 hnodup).1
    · rw [parent_unchain, if_pos rfl, hparent]
    · refine ⟨by simp, ?_, hchild w hw⟩
      rw [parent_unchain, if_neg hwx]
  · rw [fresh_unchain]
    exact h.bound w (hlist.mem_iff.2 (by simpa using .inr (List.mem_append.1 hw)))

theorem root_unchain (h : T.At p y t) (hy : y ≠ nilSym) : (unchain T y x).root ≠ none := by
  have hparent := h.tree.parent_eq hy
  have heq : unchain T y x = (T.setParent x p.top).replaceChild .left p.top y x := by
    simp [unchain, hparent]
  rw [heq]
  cases p with
  | nil => simp [replaceChild]
  | cons f fs =>
      obtain ⟨r, hr, -⟩ := h.root_ne
      by_cases hf : y = T.child .left f.value <;> simp [replaceChild, hf, hr]

section Swap

attribute [local simp] swap in
@[simp] theorem name_swap : (swap T y z).name v = T.name v := by
  simp

@[simp] theorem fresh_swap : (swap T y z).fresh = T.fresh := by
  simp [swap]

theorem color_swap : (swap T y z).color v = if v = y then T.color z else T.color v := by
  simp [swap]

theorem child_swap (hyz : z ≠ y) (hv : T.parent z ≠ some v) :
    (swap T y z).child s v = if v = y then T.child s z else T.child s v := by
  cases s <;> simp [swap, child_replaceChild, hv, hyz]

theorem parent_swap (hyz : z ≠ y) (hy : T.parent z ≠ some y) :
    (swap T y z).parent v =
      if v = T.child .left z then some y
      else if v = T.child .right z then some y
      else if v = y then T.parent z else T.parent v := by
  simp [swap, child_replaceChild, hy, hyz]

/-- A node out of the tree takes the place of a node. -/
theorem At.swap_node (h : T.At p z (.node c l z r)) (hy : y ≠ nilSym) (hbound : y < T.fresh)
    (hout : y ∉ (ColoredTree.node c l z r).toList ++ p.labels) :
    (swap T y z).At p y (.node c l y r) := by
  obtain ⟨-, hz, hc, hparent, hlt, hrt⟩ := h.tree
  have hnodup := h.nodup
  simp only [toList, List.append_assoc, List.cons_append, List.nodup_append, List.nodup_cons,
    List.mem_append, List.mem_cons, not_or, ne_eq] at hnodup hout
  obtain ⟨hln, ⟨⟨hzr, hzp⟩, hrn, hpn, hrp⟩, hlo⟩ := hnodup
  obtain ⟨hyl, hyz, hyr, hyp⟩ := hout
  have htop : ∀ w, w ∉ p.labels → T.parent z ≠ some w := by
    rw [hparent]
    exact fun w hw htop => hw (top_mem htop)
  have hchild : ∀ w s, w ∉ p.labels →
      (swap T y z).child s w = if w = y then T.child s z else T.child s w :=
    fun w s hw => child_swap (Ne.symm hyz) (htop w hw)
  have hparent' := fun w => parent_swap (v := w) (Ne.symm hyz) (htop y hyp)
  have hleft : T.child .left z ≠ nilSym → T.child .left z ∈ l.toList := hlt.mem
  have hright : T.child .right z ≠ nilSym → T.child .right z ∈ r.toList := hrt.mem
  have hl0 : ∀ w ∈ l.toList, w ≠ nilSym := fun w hw => hlt.ne_nilSym hw
  have hr0 : ∀ w ∈ r.toList, w ≠ nilSym := fun w hw => hrt.ne_nilSym hw
  have hyleft : y ≠ T.child .left z := by
    intro heq
    exact hyl (heq.symm ▸ hleft (heq ▸ hy))
  have hyright : y ≠ T.child .right z := by
    intro heq
    exact hyr (heq.symm ▸ hright (heq ▸ hy))
  have hlabel : ∀ w ∈ p.labels, w ≠ T.child .left z ∧ w ≠ T.child .right z ∧ w ≠ y := by
    intro w hw
    have hw0 := h.path.ne_nilSym hw
    refine ⟨?_, ?_, ?_⟩
    · rintro rfl
      exact hlo _ (hleft hw0) _ (.inr (.inr hw)) rfl
    · rintro rfl
      exact hrp _ (hright hw0) _ hw rfl
    · rintro rfl
      exact hyp hw
  refine ⟨?_, ⟨rfl, hy, ?_, ?_, ?_, ?_⟩, ?_, fun w hw => ?_, ?_⟩
  · let T₁ := ((T.setChild .left y (T.child .left z)).setChild .right y
      (T.child .right z)).setParent y p.top
    have heq : swap T y z = (((T₁.replaceChild .left p.top z y).setParent (T.child .right z)
        (some y)).setParent (T.child .left z) (some y)).setColor y c := by
      have hyz' : ¬z = y := fun h => hyz h.symm
      simp [swap, T₁, hyz', hparent, hc, child_replaceChild, hparent ▸ htop y hyp]
    have hT₁ : T₁.LinkedPath z p := by
      refine h.path.congr rfl fun w hw => ?_
      obtain ⟨-, -, hwy⟩ := hlabel w hw
      exact ⟨by simp [T₁], by simp [T₁, hwy], fun s => by simp [T₁, hwy]⟩
    rw [heq]
    refine (hT₁.replaceChild (s := .left) hz hzp hpn).congr rfl fun w hw => ?_
    obtain ⟨hwl, hwr, hwy⟩ := hlabel w hw
    exact ⟨by simp [hwy], by simp [hwl, hwr], fun s => by simp⟩
  · rw [color_swap, if_pos rfl, hc]
  · rw [hparent', if_neg hyleft, if_neg hyright, if_pos rfl, hparent]
  · rw [hchild y .left hyp, if_pos rfl]
    have hother : ∀ w ∈ l.toList, w ≠ y ∧ w ∉ p.labels ∧ w ≠ T.child .right z := by
      intro w hw
      refine ⟨?_, fun hwp => hlo w hw w (.inr (.inr hwp)) rfl, ?_⟩
      · rintro rfl
        exact hyl hw
      · rintro rfl
        exact hlo _ hw _ (.inr (.inl (hright (hl0 _ hw)))) rfl
    refine hlt.hang (fun hx0 => ?_) (fun w hw hwx => ?_) hln
    · obtain ⟨hwy, hwp, -⟩ := hother _ (hleft hx0)
      refine ⟨by rw [color_swap, if_neg hwy], by rw [hparent', if_pos rfl], fun s => ?_⟩
      rw [hchild _ s hwp, if_neg hwy]
    · obtain ⟨hwy, hwp, hwr⟩ := hother w hw
      refine ⟨by rw [color_swap, if_neg hwy], ?_, fun s => ?_⟩
      · rw [hparent', if_neg hwx, if_neg hwr, if_neg hwy]
      · rw [hchild w s hwp, if_neg hwy]
  · rw [hchild y .right hyp, if_pos rfl]
    have hother : ∀ w ∈ r.toList, w ≠ y ∧ w ∉ p.labels ∧ w ≠ T.child .left z := by
      intro w hw
      refine ⟨?_, fun hwp => hrp w hw w hwp rfl, ?_⟩
      · rintro rfl
        exact hyr hw
      · rintro rfl
        exact hlo _ (hleft (hr0 _ hw)) _ (.inr (.inl hw)) rfl
    refine hrt.hang (fun hx0 => ?_) (fun w hw hwx => ?_) hrn
    · obtain ⟨hwy, hwp, hwl⟩ := hother _ (hright hx0)
      refine ⟨by rw [color_swap, if_neg hwy], ?_, fun s => ?_⟩
      · rw [hparent', if_neg hwl, if_pos rfl]
      · rw [hchild _ s hwp, if_neg hwy]
    · obtain ⟨hwy, hwp, hwl⟩ := hother w hw
      refine ⟨by rw [color_swap, if_neg hwy], ?_, fun s => ?_⟩
      · rw [hparent', if_neg hwl, if_neg hwx, if_neg hwy]
      · rw [hchild w s hwp, if_neg hwy]
  · simp only [toList, List.append_assoc, List.cons_append, List.nodup_append, List.nodup_cons,
      List.mem_append, List.mem_cons, not_or, ne_eq]
    refine ⟨hln, ⟨⟨hyr, hyp⟩, hrn, hpn, hrp⟩, fun w hw v hv => ?_⟩
    rcases hv with rfl | hv
    · rintro rfl
      exact hyl hw
    · exact hlo w hw v (.inr hv)
  · rw [fresh_swap]
    by_cases hwy : w = y
    · rw [hwy]
      exact hbound
    · refine h.bound w ?_
      simp only [toList, List.mem_append, List.mem_cons, hwy, false_or] at hw ⊢
      tauto
  · rw [color_swap, if_neg hy.symm]
    exact h.leaf

end Swap

/-- The fixup after a node is gone. -/
theorem removed_spec (h : U.At p x t) (hbal : RBBalanced (fork s c t y .nil) c n)
    (hp : p.Holds d n) (hfit : c = .black ∨ d = .red) (hroot : p.RootBlack)
    (hparent : U.parent x = p.top) (hsome : U.root ≠ none) (hfuel : p.length < fuel) :
    ∃ V, (if c = .black then deleteFixup fuel U x else some U) = some V ∧
      Mends U V (p.fill t).toList := by
  cases c with
  | red =>
      obtain ⟨-, ht, -⟩ := rbBalanced_fork_red hbal
      exact ⟨U, rfl, Mends.of_at h ht hp (.inl rfl) hroot fun _ => rfl⟩
  | black =>
      obtain ⟨m, k, _, rfl, -, ht, -⟩ := rbBalanced_fork_black hbal
      exact deleteFixup_spec h ht hp hroot hparent hsome hfuel

theorem leftmost_spec (h : T.At p x t) (ht : t ≠ .nil) (hfuel : t.toList.length < fuel) :
    ∃ q y k t', leftmost T fuel x = some y ∧ T.At (q ++ p) y (.node k .nil y t') ∧
      TreePath.fill q (.node k .nil y t') = t ∧ t.toList = y :: (TreePath.fill q t').toList := by
  induction t generalizing p x fuel with
  | nil => exact absurd rfl ht
  | node c l v r ihl ihr =>
      obtain ⟨m, rfl⟩ := Nat.exists_eq_add_of_lt hfuel
      obtain ⟨rfl, hx, -, -, hlt, -⟩ := h.tree
      simp only [toList, List.length_append, List.length_cons]
      cases l with
      | nil =>
          refine ⟨[], x, c, r, ?_, h, rfl, rfl⟩
          have hleft : T.child .left x = nilSym := hlt
          simp [leftmost, hleft]
      | node c' l' v' r' =>
          have hleft : T.child .left x ≠ nilSym := hlt.1 ▸ hlt.2.1
          obtain ⟨q, y, k, t', hy, hplace, hfill, hlist⟩ :=
            ihl (At.down (s := .left) h) (by simp) (Nat.lt_add_of_pos_right
              (by omega : 0 < r.toList.length + 1 + m))
          refine ⟨q ++ [⟨.left, c, x, r⟩], y, k, t', ?_, ?_, ?_, ?_⟩
          · rw [← hy]
            simp [leftmost, hleft, Nat.add_assoc]
          · simpa using hplace
          · rw [TreePath.fill_append, hfill]
            rfl
          · rw [TreePath.fill_append, hlist]
            simp [TreePath.fill, TreeFrame.plug, fork, toList]

theorem At.up_path (h : T.At (q ++ p) x t) : ∃ y, T.At p y (TreePath.fill q t) := by
  induction q generalizing x t with
  | nil => exact ⟨x, h⟩
  | cons f fs ih => exact ih h.up

theorem At.down_path (h : T.At p x (TreePath.fill q t)) : ∃ y, T.At (q ++ p) y t := by
  induction q generalizing t with
  | nil => exact ⟨x, h⟩
  | cons f fs ih =>
      obtain ⟨y, hy⟩ := ih h
      have hdown := At.down hy
      exact ⟨_, hdown⟩

theorem root_swap (h : T.root ≠ none) : (swap T y z).root ≠ none := by
  have hroot : ∀ (V : SymbolTree) (q : Option Nat), V.root ≠ none →
      (V.replaceChild .left q z y).root ≠ none := by
    intro V q hV
    cases q with
    | none => simp [replaceChild]
    | some g => by_cases hg : z = V.child .left g <;> simpa [replaceChild, hg] using hV
  simp only [swap, root_setColor, root_setParent]
  exact hroot _ _ (by simpa using h)

/-- A node with at most one child is cut out. -/
theorem deleteNode_single (h : T.At p z (fork s c t z .nil)) (hz : z ≠ nilSym)
    (hbal : RBBalanced (p.fill (fork s c t z .nil)) .black n) :
    ∃ U, deleteNode T z = some U ∧ Mends T U (p.fill t).toList := by
  obtain ⟨k, d, m, hp, ht, hfit, hroot, -⟩ := TreePath.Holds.of_fill hbal
  obtain rfl := ht.color_eq
  have hother : T.child s.other z = nilSym := (linked_fork.1 h.tree).2.2.2.2.2
  have hcolor : T.color z = k := (linked_fork.1 h.tree).2.2.1
  have hx : (if T.child .left z = nilSym then T.child .right z else T.child .left z) =
      T.child s z := by
    cases s with
    | left =>
        by_cases hleft : T.child .left z = nilSym
        · rw [if_pos hleft, hleft]
          exact hother
        · rw [if_neg hleft]
    | right => exact if_pos hother
  have hone : T.child .left z = nilSym ∨ T.child .right z = nilSym := by
    cases s with
    | left => exact .inr hother
    | right => exact .inl hother
  have hcut := h.unchain_child
  have hlength := hcut.length_le
  rw [List.length_append] at hlength
  have hdepth := p.length_le_labels
  have hparent : (unchain T z (T.child s z)).parent (T.child s z) = p.top := by
    rw [parent_unchain, if_pos rfl, h.tree.parent_eq hz]
  obtain ⟨U, hU, hmends⟩ := removed_spec hcut ht hp hfit hroot hparent
    (root_unchain h hz) (by omega : p.length < (unchain T z (T.child s z)).fresh + 1)
  refine ⟨U, ?_, hmends.congr (by simp) (by simp)⟩
  rw [← hU]
  simp [deleteNode, hone, hx, hcolor]

theorem Linked.ne_of_ne_nil {q : Option Nat} (h : T.Linked q x t) (ht : t ≠ .nil) :
    x ≠ nilSym := by
  cases t with
  | nil => exact absurd rfl ht
  | node c l v r => exact h.1 ▸ h.2.1

/-- The successor of a node with two children takes its place. -/
theorem deleteNode_double (h : T.At p z (.node c l z r)) (hl : l ≠ .nil) (hr : r ≠ .nil)
    (hbal : RBBalanced (p.fill (.node c l z r)) .black n) :
    ∃ U, deleteNode T z = some U ∧
      Mends T U (p.before ++ (l.toList ++ r.toList) ++ p.after) := by
  obtain ⟨-, hz, -, -, hlt, hrt⟩ := h.tree
  have hleft := hlt.ne_of_ne_nil hl
  have hright := hrt.ne_of_ne_nil hr
  have hlength := h.length_le
  simp only [toList, List.length_append, List.length_cons] at hlength
  obtain ⟨q, y, k, t, hy, hplace, hfill, hlist⟩ := leftmost_spec (At.down (s := .right) h) hr
    (by omega : r.toList.length < T.fresh + 1)
  have hnode : T.At (q ++ ⟨.right, c, z, l⟩ :: p) y (fork .right k t y .nil) := hplace
  obtain ⟨-, hy0, hcolor, hparent, hleftmost, -⟩ := hplace.tree
  have hcut := hnode.unchain_child
  obtain ⟨w, hw⟩ := hcut.up_path
  have hupper : (unchain T y (T.child .right y)).At p z (.node c l z (TreePath.fill q t)) := hw.up
  have hyout : y ∉ (ColoredTree.node c l z (TreePath.fill q t)).toList ++ p.labels := by
    have hnodup := hplace.nodup
    simp only [toList, List.nil_append, List.cons_append, List.nodup_cons] at hnodup
    have hsame : (TreePath.fill (q ++ ⟨.right, c, z, l⟩ :: p) t).toList =
        (p.fill (.node c l z (TreePath.fill q t))).toList := by
      rw [TreePath.fill_append]
      rfl
    rw [← (TreePath.fill_perm p _).mem_iff, ← hsame, (TreePath.fill_perm _ t).mem_iff]
    exact hnodup.1
  have hyz : y ≠ z := by
    rintro rfl
    exact hyout (by simp [toList])
  have hswap := hupper.swap_node hy0 (by
    rw [fresh_unchain]
    exact hplace.bound y (by simp [toList])) hyout
  obtain ⟨w', hw'⟩ := (At.down (s := .right) hswap).down_path
  obtain rfl := hw'.tree.root_unique hcut.tree
  have hbal' : RBBalanced (TreePath.fill (q ++ ⟨.right, c, z, l⟩ :: p) (.node k .nil y t))
      .black n := by
    rw [TreePath.fill_append, hfill]
    exact hbal
  obtain ⟨k', d, m, hp, ht, hfit, hroot, -⟩ := TreePath.Holds.of_fill hbal'
  obtain rfl := RBBalanced.color_eq (s := .right) ht
  have hbound := hw'.length_le
  rw [List.length_append] at hbound
  have hdepth := TreePath.length_le_labels (q ++ ⟨.right, c, y, l⟩ :: p)
  have htop : (swap (unchain T y (T.child .right y)) y z).parent (T.child .right y) =
      TreePath.top (q ++ ⟨.right, c, y, l⟩ :: p) := by
    by_cases hx : T.child .right y = nilSym
    · have hzparent : (unchain T y (T.child .right y)).parent z ≠ some y := by
        rw [hupper.tree.parent_eq hz]
        exact fun htop => hyout (List.mem_append_right _ (top_mem htop))
      have hl0 := Linked.ne_of_ne_nil hupper.tree.2.2.2.2.1 hl
      rw [parent_swap (Ne.symm hyz) hzparent, hx, if_neg (Ne.symm (hx ▸ hl0))]
      cases q with
      | nil =>
          have hr0 : (unchain T y (T.child .right y)).child .right z = T.child .right y :=
            hcut.path.2.2.2.1
          rw [hx] at hr0
          rw [if_pos hr0.symm]
          rfl
      | cons f fs =>
          have hr0 := Linked.ne_of_ne_nil hupper.tree.2.2.2.2.2
            (TreePath.fill_ne_nil fs (f.plug_ne_nil t))
          rw [hx] at hr0
          rw [if_neg (Ne.symm hr0), if_neg (Ne.symm hy0), parent_unchain, if_pos rfl, hparent]
          rfl
    · exact hw'.tree.parent_eq hx
  obtain ⟨U, hU, hmends⟩ := removed_spec (s := .right) hw' ht hp.replace hfit hroot.replace htop
    (root_swap (root_unchain hnode hy0)) (by omega :
      (q ++ ⟨.right, c, y, l⟩ :: p).length <
        (swap (unchain T y (T.child .right y)) y z).fresh + 1)
  refine ⟨U, ?_, ?_⟩
  · rw [← hU]
    have hl0 : T.child .left y = nilSym := hleftmost
    simp [deleteNode, hleft, hright, hy, hl0, hyz, hcolor]
  · have horder : (TreePath.fill (q ++ ⟨.right, c, y, l⟩ :: p) t).toList =
        p.before ++ (l.toList ++ r.toList) ++ p.after := by
      rw [TreePath.fill_append, hlist, TreePath.toList_fill, TreePath.surround_eq]
      simp [TreePath.before, TreePath.after]
    rw [horder] at hmends
    exact hmends.congr (by simp) (by simp)

theorem deleteNode_spec (h : T.At p z (.node c l z r))
    (hbal : RBBalanced (p.fill (.node c l z r)) .black n) :
    ∃ U, deleteNode T z = some U ∧
      Mends T U (p.before ++ (l.toList ++ r.toList) ++ p.after) := by
  have hz := h.tree.2.1
  by_cases hr : r = .nil
  · subst hr
    obtain ⟨U, hU, hmends⟩ := deleteNode_single (s := .left) h hz hbal
    rw [TreePath.toList_fill, TreePath.surround_eq] at hmends
    exact ⟨U, hU, by simpa [toList] using hmends⟩
  · by_cases hl : l = .nil
    · subst hl
      obtain ⟨U, hU, hmends⟩ := deleteNode_single (s := .right) h hz hbal
      rw [TreePath.toList_fill, TreePath.surround_eq] at hmends
      exact ⟨U, hU, hmends⟩
    · exact deleteNode_double h hl hr hbal

theorem deleteSymbol_spec (h : T.Sorted b order) (hkey : key.FollowedBy b) :
    ∃ found U order', deleteSymbol T key = some (found, U) ∧ U.Sorted b order' ∧
      (found ↔ ∃ x ∈ order, T.bytes x = key.bytes) ∧
      (∀ x, x ∈ order' ↔ x ∈ order ∧ T.bytes x ≠ key.bytes) ∧
      (∀ x, U.bytes x = T.bytes x) ∧ U.fresh = T.fresh := by
  obtain ⟨q, z, hsearch⟩ := h.search hkey
  by_cases hz : z = nilSym
  · have habsent := mt hsearch.found_iff.2 (by simpa using hz)
    refine ⟨false, T, order, by simp [deleteSymbol, hsearch.found, hz], h, by simpa using habsent,
      fun x => ?_, fun _ => rfl, rfl⟩
    refine ⟨fun hx => ⟨hx, fun hname => ?_⟩, And.left⟩
    exact habsent ⟨x, hx, hname⟩
  · obtain ⟨u, n, hplace, horder, hbal⟩ := hsearch.place
    have hname := hsearch.name hz
    cases u with
    | nil => exact absurd hplace.tree hz
    | node c l v r =>
        obtain rfl : z = v := hplace.tree.1
        obtain ⟨U, hU, hmends⟩ := deleteNode_spec hplace hbal
        rw [TreePath.toList_fill, TreePath.surround_eq, toList] at horder
        have hbytes : ∀ x, U.bytes x = T.bytes x := fun x => by
          rw [bytes, hmends.name, bytes]
        have hsub : (q.before ++ (l.toList ++ r.toList) ++ q.after).Sublist order := by
          rw [← horder]
          refine List.Sublist.append_right (List.Sublist.append_left ?_ _) _
          exact List.Sublist.append_left (List.sublist_cons_self ..) _
        refine ⟨true, U, _, by simp [deleteSymbol, hsearch.found, hz, hU],
          ⟨hmends.tree, fun y hy => ?_, ?_, ?_⟩, by simpa using hsearch.found_iff.1 hz,
          fun x => ?_, hbytes, hmends.fresh⟩
        · rw [hmends.name]
          exact h.names y (hsub.subset hy)
        · refine (List.Pairwise.sublist hsub h.increasing).imp fun hlt => ?_
          rwa [hbytes, hbytes]
        · rw [hmends.fresh]
          exact h.fresh
        · have hperm : order.Perm (z :: (q.before ++ (l.toList ++ r.toList) ++ q.after)) := by
            rw [← horder]
            have hmiddle := @List.perm_middle _ z (q.before ++ l.toList) (r.toList ++ q.after)
            simpa using hmiddle
          have hdistinct : order.Nodup := by
            apply h.increasing.imp
            rintro x _ hlt rfl
            exact List.lt_irrefl _ hlt
          rw [hperm.nodup_iff, List.nodup_cons] at hdistinct
          constructor
          · intro hx
            refine ⟨hsub.subset hx, fun hsame => hdistinct.1 ?_⟩
            rwa [← h.unique (hsub.subset hx) (hsearch.mem hz) (hsame.trans hname.symm)]
          · rintro ⟨hx, hne⟩
            rcases List.mem_cons.1 (hperm.mem_iff.1 hx) with rfl | hx
            · exact absurd hname hne
            · exact hx

end SymbolTree

end NewLispNeo
