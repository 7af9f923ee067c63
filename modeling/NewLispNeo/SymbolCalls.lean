/-
`findInsertSymbol` and `deleteSymbol` on a balanced search tree.
-/
import NewLispNeo.SymbolSearch
import Mathlib.Data.List.Pairwise

namespace NewLispNeo

open RedBlack RedBlack.ColoredTree

namespace SymbolTree

variable {T U : SymbolTree} {p q fs : TreePath Nat} {x y z v : Nat} {t l r : ColoredTree Nat}
  {b : UInt8} {key copy : CString} {c d : Color} {s : Side} {n fuel : Nat}

/-- The new node in the hole. -/
def attach (T : SymbolTree) (copy : CString) : TreePath Nat → SymbolTree
  | [] => { withNode T copy none with root := some T.fresh }
  | f :: _ => (withNode T copy (some f.value)).setChild f.side f.value T.fresh

theorem withNode_same (parent : Option Nat) (h : x ≠ T.fresh) :
    SameLinks T (withNode T copy parent) x ∧ (withNode T copy parent).name x = T.name x := by
  simp [SameLinks, withNode, color, SymbolTree.parent, child, name, h]

theorem attach_name (h : x ≠ T.fresh) : (T.attach copy p).name x = T.name x := by
  cases p with
  | nil => exact (withNode_same none h).2
  | cons f fs =>
      rw [attach, name_setChild]
      exact (withNode_same _ h).2

theorem withNode_fields (T : SymbolTree) (copy : CString) (parent : Option Nat) :
    (withNode T copy parent).color T.fresh = .red ∧
      (withNode T copy parent).parent T.fresh = parent ∧
      (withNode T copy parent).name T.fresh = copy ∧
      ∀ s, (withNode T copy parent).child s T.fresh = nilSym := by
  refine ⟨?_, ?_, ?_, fun s => ?_⟩
  · simp [withNode, color]
  · simp [withNode, SymbolTree.parent]
  · simp [withNode, name]
  · cases s <;> simp [withNode, child, SymbolNode.child]

theorem attach_name_fresh (hp : ∀ y ∈ p.labels, y < T.fresh) :
    (T.attach copy p).name T.fresh = copy := by
  cases p with
  | nil => exact (withNode_fields T copy none).2.2.1
  | cons f fs =>
      rw [attach, name_setChild]
      exact (withNode_fields T copy _).2.2.1

theorem attach_fresh : (T.attach copy p).fresh = T.fresh + 1 := by
  cases p <;> rfl

theorem At.attach (h : T.At p nilSym .nil) (hfresh : 0 < T.fresh) :
    (T.attach copy p).At p T.fresh (fork .left .red .nil T.fresh .nil) := by
  have hbound : ∀ y ∈ p.labels, y < T.fresh := fun y hy => h.bound y (by simp [hy])
  have hpath : LinkedPath (withNode T copy p.top) nilSym p :=
    h.path.congr rfl fun y hy => (withNode_same _ (hbound y hy).ne).1
  obtain ⟨hcolor, hparent, -, hchild⟩ := withNode_fields T copy p.top
  have hleaf : (withNode T copy p.top).color nilSym = .black :=
    (withNode_same _ hfresh.ne).1.1.trans h.leaf
  have hnodup : ((fork Side.left Color.red .nil T.fresh .nil).toList ++ p.labels).Nodup := by
    have hlabels : p.labels.Nodup := by simpa [toList] using h.nodup
    refine List.nodup_cons.2 ⟨fun hmem => ?_, hlabels⟩
    exact Nat.lt_irrefl _ (hbound _ hmem)
  have hnew : ∀ y ∈ (fork Side.left Color.red .nil T.fresh .nil).toList ++ p.labels,
      y < T.fresh + 1 := by
    intro y hy
    simp only [fork, toList, List.nil_append, List.singleton_append, List.mem_cons] at hy
    rcases hy with rfl | hy
    · omega
    · exact Nat.lt_succ_of_lt (hbound y hy)
  cases p with
  | nil =>
      refine ⟨rfl, ?_, hnodup, hnew, hleaf⟩
      exact ⟨rfl, hfresh.ne', hcolor, hparent, hchild .left, hchild .right⟩
  | cons f fs =>
      have hf : T.fresh ≠ f.value := (hbound _ (by simp [TreePath.labels])).ne'
      refine ⟨hpath.setChild ?_, ?_, hnodup, hnew, ?_⟩
      · simpa [toList] using h.nodup
      · refine ⟨rfl, hfresh.ne', ?_, ?_, ?_, ?_⟩
        · rw [SymbolTree.attach, color_setChild]
          exact hcolor
        · rw [SymbolTree.attach, parent_setChild]
          exact hparent
        · rw [SymbolTree.attach, child_setChild, if_neg fun h => hf h.1]
          exact hchild .left
        · rw [SymbolTree.attach, child_setChild, if_neg fun h => hf h.1]
          exact hchild .right
      · rw [SymbolTree.attach, color_setChild]
        exact hleaf

/-- A balanced search tree of these symbols. -/
structure Sorted (b : UInt8) (T : SymbolTree) (order : List Nat) : Prop where
  tree : ∃ x t n, T.At [] x t ∧ RBBalanced t .black n ∧ t.toList = order
  names : ∀ y ∈ order, (T.name y).FollowedBy b
  increasing : T.Increasing order
  fresh : 0 < T.fresh

variable {order : List Nat}

theorem At.length_le (h : T.At p x t) : (t.toList ++ p.labels).length ≤ T.fresh := by
  have hsub : (t.toList ++ p.labels) ⊆ List.range T.fresh :=
    fun y hy => List.mem_range.2 (h.bound y hy)
  simpa using (h.nodup.subperm hsub).length_le

/-- What the search for a key comes to. -/
structure Search (b : UInt8) (T : SymbolTree) (key : CString) (order : List Nat)
    (q : TreePath Nat) (y : Nat) : Prop where
  found : lookFor T key (T.fresh + 1) (T.root.getD nilSym) none = some (y, q.top)
  place : ∃ u n, T.At q y u ∧ (q.fill u).toList = order ∧ RBBalanced (q.fill u) .black n
  name : y ≠ nilSym → T.bytes y = key.bytes
  absent : y = nilSym → T.Between key.bytes q ∧ T.Aside key.bytes q

theorem Sorted.search (h : T.Sorted b order) (hkey : key.FollowedBy b) :
    ∃ q y, Search b T key order q y := by
  obtain ⟨x, t, n, ht, hbal, rfl⟩ := h.tree
  have hlength := ht.length_le
  rw [List.length_append] at hlength
  obtain ⟨q, y, u, hfound, hplace, hfill, hname, habsent⟩ :=
    lookFor_spec ht hkey h.names h.increasing
      ⟨by simp [TreePath.before], by simp [TreePath.after]⟩ trivial
      (Nat.lt_succ_of_le (by omega : t.toList.length ≤ T.fresh))
  have hroot : T.root.getD nilSym = x := ht.path
  refine ⟨q, y, hroot ▸ hfound, ⟨u, n, hplace, ?_, ?_⟩, hname, habsent⟩
  · rw [hfill]
    rfl
  · rw [hfill]
    exact hbal

theorem At.eq_nil (h : T.At p nilSym t) : t = .nil := by
  cases t with
  | nil => rfl
  | node c l v r => exact absurd h.tree.1.symm h.tree.2.1

/-- The search finds the key if it is a name in the tree. -/
theorem Search.found_iff (h : Search b T key order q y) :
    y ≠ nilSym ↔ ∃ x ∈ order, T.bytes x = key.bytes := by
  obtain ⟨u, n, hplace, rfl, -⟩ := h.place
  constructor
  · intro hy
    refine ⟨y, ?_, h.name hy⟩
    rw [(TreePath.fill_perm q u).mem_iff]
    simp [hplace.tree.mem hy]
  · rintro ⟨x, hx, hname⟩ rfl
    obtain ⟨hbefore, hafter⟩ := (h.absent rfl).1
    obtain rfl := hplace.eq_nil
    rw [TreePath.toList_fill, TreePath.surround_eq] at hx
    simp only [toList, List.append_nil, List.mem_append] at hx
    rcases hx with hx | hx
    · exact List.lt_irrefl _ (hname ▸ hbefore x hx)
    · exact List.lt_irrefl _ (hname ▸ hafter x hx)

theorem Search.mem (h : Search b T key order q y) (hy : y ≠ nilSym) : y ∈ order := by
  obtain ⟨u, n, hplace, rfl, -⟩ := h.place
  rw [(TreePath.fill_perm q u).mem_iff]
  simp [hplace.tree.mem hy]

theorem Sorted.bound (h : T.Sorted b order) (hx : x ∈ order) : x < T.fresh := by
  obtain ⟨r, t, n, ht, -, rfl⟩ := h.tree
  exact ht.bound x (by simp [hx])

/-- A name is the name of one symbol. -/
theorem Sorted.unique (h : T.Sorted b order) (hx : x ∈ order) (hy : y ∈ order)
    (hname : T.bytes x = T.bytes y) : x = y := by
  have hdistinct : order.Pairwise fun x y => T.bytes x ≠ T.bytes y := by
    apply h.increasing.imp
    intro x y hlt heq
    rw [heq] at hlt
    exact List.lt_irrefl _ hlt
  apply Decidable.byContradiction
  intro hne
  have hsymm : Std.Symm fun x y => T.bytes x ≠ T.bytes y := ⟨fun _ _ => Ne.symm⟩
  exact hdistinct.forall hx hy hne hname

theorem lookup_spec (copy : CString) (h : T.Sorted b order) (hkey : key.FollowedBy b) :
    ∃ found, findInsertSymbol T key false copy = some (found, T) ∧
      ∀ x, found = some x ↔ x ∈ order ∧ T.bytes x = key.bytes := by
  obtain ⟨q, y, hsearch⟩ := h.search hkey
  by_cases hy : y = nilSym
  · refine ⟨none, by simp [findInsertSymbol, hsearch.found, hy], fun x => ?_⟩
    have habsent := mt hsearch.found_iff.2 (by simpa using hy)
    constructor
    · simp
    · intro hx
      exact absurd ⟨x, hx⟩ habsent
  · refine ⟨some y, by simp [findInsertSymbol, hsearch.found, hy], fun x => ?_⟩
    constructor
    · rintro ⟨⟩
      exact ⟨hsearch.mem hy, hsearch.name hy⟩
    · rintro ⟨hx, hname⟩
      exact congrArg some (h.unique (hsearch.mem hy) hx ((hsearch.name hy).trans hname.symm))

/-- The new node goes where the search ended. -/
theorem Search.linkNode_eq (copy : CString) (h : Search b T key order q nilSym)
    (hkey : key.FollowedBy b) (hnames : ∀ y ∈ order, (T.name y).FollowedBy b) :
    linkNode (withNode T copy q.top) key T.fresh q.top = T.attach copy q := by
  obtain ⟨u, n, hplace, rfl, -⟩ := h.place
  have haside := (h.absent rfl).2
  cases q with
  | nil => rfl
  | cons f fs =>
      have hmem : f.value ∈ TreePath.labels (f :: fs) := by simp [TreePath.labels]
      have hne : f.value ≠ T.fresh := (hplace.bound _ (by simp [hmem])).ne
      have hf : (T.name f.value).FollowedBy b :=
        hnames _ ((TreePath.fill_perm _ _).mem_iff.2 (by simp [hmem]))
      have hcmp := (compareKey_lt_zero_iff hkey hf).trans haside
      rw [TreePath.top_cons, linkNode, attach, (withNode_same _ hne).2]
      by_cases hlt : compareKey key (T.name f.value) < 0
      · rw [if_pos hlt, hcmp.1 hlt]
      · rw [if_neg hlt, Side.eq_other_of_ne (mt hcmp.2 hlt)]
        rfl

/-- The symbol is there already, or it is a new one. -/
theorem insert_spec (h : T.Sorted b order) (hkey : key.FollowedBy b) (hcopy : copy.FollowedBy b)
    (hsame : copy.bytes = key.bytes) :
    ∃ y U order', findInsertSymbol T key true copy = some (some y, U) ∧ U.Sorted b order' ∧
      U.bytes y = key.bytes ∧ (∀ x, x ∈ order' ↔ x = y ∨ x ∈ order) ∧
      (∀ x ∈ order, U.bytes x = T.bytes x) ∧
      (y ∈ order ∧ U.fresh = T.fresh ∨ y = T.fresh ∧ U.fresh = T.fresh + 1) := by
  obtain ⟨q, y, hsearch⟩ := h.search hkey
  by_cases hy : y = nilSym
  · subst hy
    have hlink := hsearch.linkNode_eq copy hkey h.names
    obtain ⟨u, n, hplace, horder, hbal⟩ := hsearch.place
    obtain ⟨hbetween, -⟩ := hsearch.absent rfl
    obtain rfl := hplace.eq_nil
    obtain ⟨c, d, m, hholds, hnil, -, hroot, -⟩ := TreePath.Holds.of_fill hbal
    obtain rfl : m = 0 := by cases hnil; rfl
    have hlength := hplace.length_le
    have hdepth := q.length_le_labels
    rw [List.length_append] at hlength
    have hnew : (T.attach copy q).At q T.fresh (fork .left .red .nil T.fresh .nil) :=
      hplace.attach h.fresh
    obtain ⟨U, hU, hmends⟩ := insertFixup_spec hnew (RBBalanced.red .nil .nil) hholds hroot
      (by omega : q.length < T.fresh + 1 + 1)
    have hold : order = q.before ++ q.after := by
      rw [← horder, TreePath.toList_fill, TreePath.surround_eq]
      simp [toList]
    have horder' : (q.fill (fork .left .red .nil T.fresh .nil)).toList =
        q.before ++ T.fresh :: q.after := by
      rw [TreePath.toList_fill, TreePath.surround_eq]
      simp [fork, toList]
    have hname : ∀ x ∈ order, U.name x = T.name x := fun x hx =>
      (hmends.name x).trans (attach_name (h.bound hx).ne)
    have hfreshName : U.name T.fresh = copy := by
      rw [hmends.name]
      exact attach_name_fresh fun y hy => hplace.bound y (by simp [hy])
    have hbytes : ∀ x ∈ order, U.bytes x = T.bytes x := fun x hx => by
      rw [bytes, hname x hx, bytes]
    have hfreshBytes : U.bytes T.fresh = key.bytes := by
      rw [bytes, hfreshName, hsame]
    rw [horder'] at hmends
    subst hold
    have hmem : ∀ y, y ∈ q.before ++ T.fresh :: q.after ↔
        y = T.fresh ∨ y ∈ q.before ++ q.after := by
      intro y
      simp only [List.mem_append, List.mem_cons]
      tauto
    refine ⟨T.fresh, U, _, ?_, ⟨hmends.tree, ?_, ?_, ?_⟩, hfreshBytes, hmem, hbytes,
      .inr ⟨rfl, hmends.fresh.trans attach_fresh⟩⟩
    · simp [findInsertSymbol, hsearch.found, hlink, attach_fresh, hU]
    · intro y hy
      rcases (hmem y).1 hy with rfl | hy
      · rw [hfreshName]
        exact hcopy
      · rw [hname y hy]
        exact h.names y hy
    · have hincreasing : U.Increasing (q.before ++ q.after) := by
        refine h.increasing.imp_of_mem fun hx hy hlt => ?_
        rwa [hbytes _ hx, hbytes _ hy]
      have hbefore := fun x hx => hbytes x (List.mem_append_left q.after hx)
      have hafter := fun x hx => hbytes x (List.mem_append_right q.before hx)
      obtain ⟨hb₁, hb₂, hb₃⟩ := List.pairwise_append.1 hincreasing
      refine List.pairwise_append.2 ⟨hb₁, List.pairwise_cons.2 ⟨fun x hx => ?_, hb₂⟩, ?_⟩
      · rw [hfreshBytes, hafter x hx]
        exact hbetween.2 x hx
      · intro x hx y hy
        rcases List.mem_cons.1 hy with rfl | hy
        · rw [hfreshBytes, hbefore x hx]
          exact hbetween.1 x hx
        · exact hb₃ x hx y hy
    · rw [hmends.fresh, attach_fresh]
      omega
  · refine ⟨y, T, order, by simp [findInsertSymbol, hsearch.found, hy], h, hsearch.name hy, ?_,
      fun _ _ => rfl, .inl ⟨hsearch.mem hy, rfl⟩⟩
    intro x
    constructor
    · exact .inr
    · rintro (rfl | hx)
      · exact hsearch.mem hy
      · exact hx

end SymbolTree

end NewLispNeo
