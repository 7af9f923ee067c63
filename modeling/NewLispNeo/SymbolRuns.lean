/-
The symbol table of a context over any sequence of `findInsertSymbol` and
`deleteSymbol` calls.
-/
import NewLispNeo.SymbolDeletion
import Mathlib.Data.Set.Insert

namespace NewLispNeo

open RedBlack RedBlack.ColoredTree SymbolTree

/-- A call on a context.  The caller of `findInsertSymbol` stores a copy of the key as
the name of a new symbol. -/
inductive SymbolCall where
  | create (key copy : CString) (copies : copy.bytes = key.bytes)
  | lookup (key : CString)
  | delete (key : CString)

namespace SymbolCall

def apply (T : SymbolTree) : SymbolCall → Option SymbolTree
  | create key copy _ => (findInsertSymbol T key true copy).map Prod.snd
  | lookup key => (findInsertSymbol T key false key).map Prod.snd
  | delete key => (deleteSymbol T key).map Prod.snd

/-- The names that were inserted and not deleted since. -/
def effect (names : Set (List UInt8)) : SymbolCall → Set (List UInt8)
  | create key _ _ => insert key.bytes names
  | lookup _ => names
  | delete key => names \ {key.bytes}

/-- The byte behind every empty string of the call is `b`. -/
def FollowedBy (b : UInt8) : SymbolCall → Prop
  | create key copy _ => key.FollowedBy b ∧ copy.FollowedBy b
  | lookup key => key.FollowedBy b
  | delete key => key.FollowedBy b

end SymbolCall

def applyCalls (T : SymbolTree) : List SymbolCall → Option SymbolTree
  | [] => some T
  | call :: calls => (call.apply T).bind fun U => applyCalls U calls

def storedNames (names : Set (List UInt8)) : List SymbolCall → Set (List UInt8)
  | [] => names
  | call :: calls => storedNames (call.effect names) calls

namespace SymbolTree

/-- The table of a new context. -/
structure IsNew (T : SymbolTree) : Prop where
  root : T.root = none
  fresh : 0 < T.fresh
  leaf : T.color nilSym = .black

/-- A red-black search tree with consistent parent links, whose walk lists these names
in strictly increasing order. -/
structure Holds (T : SymbolTree) (names : Set (List UInt8)) : Prop where
  tree : ∃ t n, T.At [] (T.root.getD nilSym) t ∧ RBBalanced t .black n ∧
    t.Ordered fun x y => T.bytes x < T.bytes y
  walk : ∃ symbols, collectSymbols T (T.fresh + 1) (T.root.getD nilSym) = some symbols ∧
    (symbols.map T.bytes).Pairwise (· < ·) ∧
    ∀ name, name ∈ symbols.map T.bytes ↔ name ∈ names

/-- Lookup succeeds exactly on these names. -/
def Finds (T : SymbolTree) (names : Set (List UInt8)) (key : CString) : Prop :=
  ∃ found, findInsertSymbol T key false key = some (found, T) ∧
    (found.isSome ↔ key.bytes ∈ names)

variable {T U : SymbolTree} {b : UInt8} {names : Set (List UInt8)} {order : List Nat}
  {q : Option Nat} {x : Nat} {t : ColoredTree Nat} {fuel : Nat}

theorem collectSymbols_spec (h : T.Linked q x t) (hfuel : t.toList.length < fuel) :
    collectSymbols T fuel x = some t.toList := by
  induction t generalizing q x fuel with
  | nil =>
      obtain ⟨k, rfl⟩ := Nat.exists_eq_add_of_lt hfuel
      have hx : x = nilSym := h
      simp [collectSymbols, hx, toList]
  | node c l v r ihl ihr =>
      obtain ⟨k, rfl⟩ := Nat.exists_eq_add_of_lt hfuel
      obtain ⟨rfl, hx, -, -, hl, hr⟩ := h
      simp only [toList, List.length_append, List.length_cons]
      have hleft := ihl hl (by omega : l.toList.length < l.toList.length +
        (r.toList.length + 1) + k)
      have hright := ihr hr (by omega : r.toList.length < l.toList.length +
        (r.toList.length + 1) + k)
      simp [collectSymbols, hx, hleft, hright]

/-- The table is a balanced search tree of these names. -/
def SortedNames (b : UInt8) (T : SymbolTree) (names : Set (List UInt8)) : Prop :=
  ∃ order, T.Sorted b order ∧ ∀ name, (∃ x ∈ order, T.bytes x = name) ↔ name ∈ names

theorem IsNew.sorted (h : T.IsNew) : T.SortedNames b ∅ := by
  refine ⟨[], ⟨⟨nilSym, .nil, 0, ⟨?_, rfl, .nil, by simp [toList, TreePath.labels], h.leaf⟩, .nil,
    rfl⟩, by simp, .nil, h.fresh⟩, by simp⟩
  simp [LinkedPath, h.root]

theorem SortedNames.apply (h : T.SortedNames b names) {call : SymbolCall}
    (hcall : call.FollowedBy b) :
    ∃ U, call.apply T = some U ∧ U.SortedNames b (call.effect names) := by
  obtain ⟨order, hsorted, hnames⟩ := h
  cases call with
  | create key copy copies =>
      obtain ⟨y, U, order', hU, hsorted', hy, hmem, hbytes, -⟩ :=
        insert_spec hsorted hcall.1 hcall.2 copies
      refine ⟨U, by simp [SymbolCall.apply, hU], order', hsorted', fun name => ?_⟩
      simp only [SymbolCall.effect, Set.mem_insert_iff, ← hnames]
      constructor
      · rintro ⟨x, hx, rfl⟩
        rcases (hmem x).1 hx with rfl | hx
        · exact .inl hy
        · exact .inr ⟨x, hx, (hbytes x hx).symm⟩
      · rintro (rfl | ⟨x, hx, rfl⟩)
        · exact ⟨y, (hmem y).2 (.inl rfl), hy⟩
        · exact ⟨x, (hmem x).2 (.inr hx), hbytes x hx⟩
  | lookup key =>
      obtain ⟨found, hfound, -⟩ := lookup_spec key hsorted hcall
      exact ⟨T, by simp [SymbolCall.apply, hfound], order, hsorted, hnames⟩
  | delete key =>
      obtain ⟨found, U, order', hU, hsorted', -, hmem, hbytes, -⟩ :=
        deleteSymbol_spec hsorted hcall
      refine ⟨U, by simp [SymbolCall.apply, hU], order', hsorted', fun name => ?_⟩
      simp only [SymbolCall.effect, Set.mem_sdiff, Set.mem_singleton_iff, ← hnames, hmem, hbytes]
      constructor
      · rintro ⟨x, ⟨hx, hne⟩, rfl⟩
        exact ⟨⟨x, hx, rfl⟩, hne⟩
      · rintro ⟨⟨x, hx, rfl⟩, hne⟩
        exact ⟨x, ⟨hx, hne⟩, rfl⟩

theorem SortedNames.applyCalls (h : T.SortedNames b names) {calls : List SymbolCall}
    (hcalls : ∀ call ∈ calls, call.FollowedBy b) :
    ∃ U, applyCalls T calls = some U ∧ U.SortedNames b (storedNames names calls) := by
  induction calls generalizing T names with
  | nil => exact ⟨T, rfl, h⟩
  | cons call calls ih =>
      rw [List.forall_mem_cons] at hcalls
      obtain ⟨V, hV, hsorted⟩ := h.apply hcalls.1
      obtain ⟨U, hU, hresult⟩ := ih hsorted hcalls.2
      refine ⟨U, ?_, hresult⟩
      rw [NewLispNeo.applyCalls, hV]
      exact hU

theorem SortedNames.holds (h : T.SortedNames b names) : T.Holds names := by
  obtain ⟨order, ⟨⟨x, t, n, ht, hbal, rfl⟩, -, hincreasing, -⟩, hnames⟩ := h
  have hroot : T.root.getD nilSym = x := ht.path
  have hlength := ht.length_le
  rw [List.length_append] at hlength
  refine ⟨⟨t, n, hroot ▸ ht, hbal, ordered_of_pairwise hincreasing⟩, t.toList, ?_, ?_, ?_⟩
  · exact collectSymbols_spec (hroot ▸ ht.tree) (by omega)
  · exact List.pairwise_map.2 hincreasing
  · intro name
    rw [← hnames, List.mem_map]

theorem SortedNames.finds (h : T.SortedNames b names) {key : CString}
    (hkey : key.FollowedBy b) : T.Finds names key := by
  obtain ⟨order, hsorted, hnames⟩ := h
  obtain ⟨found, hfound, hiff⟩ := lookup_spec key hsorted hkey
  refine ⟨found, hfound, ?_⟩
  rw [← hnames, Option.isSome_iff_exists]
  exact exists_congr hiff

end SymbolTree

/-- The symbol table invariant, as long as the same byte is behind every empty name. -/
theorem symbol_table_invariant (b : UInt8) {T : SymbolTree} (hT : T.IsNew)
    {calls : List SymbolCall} (hcalls : ∀ call ∈ calls, call.FollowedBy b) :
    ∃ U, applyCalls T calls = some U ∧ U.Holds (storedNames ∅ calls) ∧
      ∀ key : CString, key.FollowedBy b → U.Finds (storedNames ∅ calls) key := by
  obtain ⟨U, hU, hsorted⟩ := (hT.sorted (b := b)).applyCalls hcalls
  exact ⟨U, hU, hsorted.holds, fun key hkey => hsorted.finds hkey⟩

/-- An empty table. -/
def SymbolTree.new : SymbolTree where
  nodes := fun _ => ⟨⟨[], 0, CString.zero_notMem_nil⟩, .black, none, nilSym, nilSym⟩
  root := none
  fresh := 1

theorem isNew_new : SymbolTree.new.IsNew := ⟨rfl, by decide, rfl⟩

/-- A string of one letter. -/
def CString.letter (x : UInt8) (h : 0 ≠ x) : CString := ⟨[x], 0, by simpa using h⟩

theorem symbol_table_invariant_letters :
    let a := CString.letter 97 (by decide)
    let b := CString.letter 98 (by decide)
    let calls := [.create a a rfl, .create b b rfl, .delete a]
    ∃ U, applyCalls SymbolTree.new calls = some U ∧ U.Holds (storedNames ∅ calls) := by
  intro a b calls
  have hcalls : ∀ call ∈ calls, call.FollowedBy 0 := by
    simp [calls, a, b, SymbolCall.FollowedBy, CString.FollowedBy, CString.letter]
  obtain ⟨U, hU, hholds, -⟩ := symbol_table_invariant 0 isNew_new hcalls
  exact ⟨U, hU, hholds⟩

/-- The empty string, with any byte behind it. -/
def CString.empty (behind : UInt8) : CString := ⟨[], behind, CString.zero_notMem_nil⟩

/-- An empty name that was inserted is not found. -/
theorem empty_name_lost :
    ∃ U, applyCalls SymbolTree.new [.create (.empty 0) (.empty 0) rfl] = some U ∧
      ¬U.Finds (storedNames ∅ [.create (.empty 0) (.empty 0) rfl]) (.empty 1) := by
  refine ⟨_, rfl, ?_⟩
  rintro ⟨found, hfound, hiff⟩
  have hnone : found = none := by
    have hlookup := congrArg (Option.map Prod.fst) hfound
    exact (Option.some.inj hlookup).symm
  subst hnone
  have hmem := hiff.2 (by simp [storedNames, SymbolCall.effect, CString.empty])
  exact absurd hmem (by simp)

end NewLispNeo
