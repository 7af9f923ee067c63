/-
The order of the names, and the loop that looks for a key.
-/
import NewLispNeo.TreeDelete

namespace NewLispNeo

open RedBlack RedBlack.ColoredTree

namespace CString

/-- The byte that `str2cmp` reads behind an empty string is `b`. -/
def FollowedBy (b : UInt8) (s : CString) : Prop := s.bytes = [] → s.behind = b

theorem strcmp_lt_zero_iff (xs ys : List UInt8) : strcmp xs ys < 0 ↔ xs < ys := by
  induction xs generalizing ys with
  | nil => cases ys <;> simp [strcmp]
  | cons x xs ih =>
      cases ys with
      | nil => simp [strcmp]
      | cons y ys =>
          rw [strcmp, List.cons_lt_cons_iff, ← ih]
          by_cases hxy : x = y
          · subst hxy
            simp
          · by_cases hlt : x < y <;> simp [hxy, hlt]

theorem strcmp_eq_zero_iff (xs ys : List UInt8) : strcmp xs ys = 0 ↔ xs = ys := by
  induction xs generalizing ys with
  | nil => cases ys <;> simp [strcmp]
  | cons x xs ih =>
      cases ys with
      | nil => simp [strcmp]
      | cons y ys =>
          rw [strcmp, List.cons.injEq, ← ih]
          by_cases hxy : x = y
          · simp [hxy]
          · by_cases hlt : x < y <;> simp [hxy, hlt]

theorem ne_zero_of_mem {s : CString} {x : UInt8} (hx : x ∈ s.bytes) : 0 < x.toNat := by
  rcases Nat.eq_zero_or_pos x.toNat with h | h
  · have hzero : x = 0 := UInt8.toNat_inj.1 h
    exact absurd (hzero ▸ hx) s.noZero
  · exact h

/-- The two bytes that `str2cmp` compares. -/
def pair (s : CString) : Nat := s.first.toNat * 256 + s.second.toNat

theorem pair_nil {b : UInt8} {s : CString} (h : s.FollowedBy b) (hs : s.bytes = []) :
    s.pair = b.toNat := by
  simp [pair, first, second, hs, h hs]

theorem pair_single {s : CString} {x : UInt8} (hs : s.bytes = [x]) :
    s.pair = x.toNat * 256 := by
  simp [pair, first, second, hs]

theorem pair_cons {s : CString} {x y : UInt8} {zs : List UInt8} (hs : s.bytes = x :: y :: zs) :
    s.pair = x.toNat * 256 + y.toNat := by
  simp [pair, first, second, hs]

/-- Unless `str2cmp` calls the names equal, it orders them as their bytes are. -/
theorem pair_lt_iff {b : UInt8} {s t : CString} (hs : s.FollowedBy b) (ht : t.FollowedBy b)
    (hne : s.pair ≠ t.pair) : s.pair < t.pair ↔ s.bytes < t.bytes := by
  have hb := b.toNat_lt
  match hsb : s.bytes, htb : t.bytes with
  | [], [] => simp [pair_nil hs hsb, pair_nil ht htb] at hne
  | [], [y] =>
      have hy := ne_zero_of_mem (s := t) (x := y) (by simp [htb])
      rw [pair_nil hs hsb, pair_single htb]
      simp
      omega
  | [], y :: y₂ :: ys =>
      have hy := ne_zero_of_mem (s := t) (x := y) (by simp [htb])
      rw [pair_nil hs hsb, pair_cons htb]
      simp
      omega
  | [x], [] =>
      have hx := ne_zero_of_mem (s := s) (x := x) (by simp [hsb])
      rw [pair_single hsb, pair_nil ht htb]
      simp
      omega
  | x :: x₂ :: xs, [] =>
      have hx := ne_zero_of_mem (s := s) (x := x) (by simp [hsb])
      rw [pair_cons hsb, pair_nil ht htb]
      simp
      omega
  | [x], [y] =>
      rw [pair_single hsb, pair_single htb]
      simp [List.cons_lt_cons_iff, UInt8.lt_iff_toNat_lt]
  | [x], y :: y₂ :: ys =>
      have hy := ne_zero_of_mem (s := t) (x := y₂) (by simp [htb])
      have hy' := y₂.toNat_lt
      rw [pair_single hsb, pair_cons htb] at hne ⊢
      simp [List.cons_lt_cons_iff, UInt8.lt_iff_toNat_lt, ← UInt8.toNat_inj]
      omega
  | x :: x₂ :: xs, [y] =>
      have hx := ne_zero_of_mem (s := s) (x := x₂) (by simp [hsb])
      have hx' := x₂.toNat_lt
      rw [pair_cons hsb, pair_single htb] at hne ⊢
      simp [List.cons_lt_cons_iff, UInt8.lt_iff_toNat_lt, ← UInt8.toNat_inj]
      omega
  | x :: x₂ :: xs, y :: y₂ :: ys =>
      have hx' := x₂.toNat_lt
      have hy' := y₂.toNat_lt
      rw [pair_cons hsb, pair_cons htb] at hne ⊢
      simp only [List.cons_lt_cons_iff, UInt8.lt_iff_toNat_lt, ← UInt8.toNat_inj]
      omega

end CString

open CString

theorem str2cmp_eq (s t : CString) : str2cmp s t = (s.pair : Int) - t.pair := by
  simp [str2cmp, pair]

variable {b : UInt8} {key name : CString}

theorem compareKey_lt_zero_iff (hkey : key.FollowedBy b) (hname : name.FollowedBy b) :
    compareKey key name < 0 ↔ key.bytes < name.bytes := by
  unfold compareKey
  rw [str2cmp_eq]
  by_cases h : (key.pair : Int) - name.pair = 0
  · rw [if_pos h]
    exact strcmp_lt_zero_iff ..
  · rw [if_neg h, ← pair_lt_iff hkey hname (by omega)]
    omega

theorem compareKey_eq_zero_iff (hkey : key.FollowedBy b) (hname : name.FollowedBy b) :
    compareKey key name = 0 ↔ key.bytes = name.bytes := by
  unfold compareKey
  rw [str2cmp_eq]
  by_cases h : (key.pair : Int) - name.pair = 0
  · rw [if_pos h]
    exact strcmp_eq_zero_iff ..
  · rw [if_neg h]
    refine iff_of_false h fun hbytes => ?_
    have hlt := pair_lt_iff hkey hname (by omega)
    have hgt := pair_lt_iff hname hkey (by omega)
    rw [hbytes] at hlt hgt
    have hirrefl := List.lt_irrefl name.bytes
    have hge := mt hlt.1 hirrefl
    have hle := mt hgt.1 hirrefl
    omega

namespace SymbolTree

variable {T : SymbolTree} {p : TreePath Nat} {x : Nat} {t : ColoredTree Nat} {fuel : Nat}

/-- The bytes of a name. -/
def bytes (T : SymbolTree) (x : Nat) : List UInt8 := (T.name x).bytes

/-- The names of these symbols are strictly increasing. -/
def Increasing (T : SymbolTree) (order : List Nat) : Prop :=
  order.Pairwise fun x y => T.bytes x < T.bytes y

/-- The key is between the names to the left of the hole and those to its right. -/
def Between (T : SymbolTree) (key : List UInt8) (p : TreePath Nat) : Prop :=
  (∀ y ∈ p.before, T.bytes y < key) ∧ ∀ y ∈ p.after, key < T.bytes y

/-- The hole is on the side of the node above it where the key belongs. -/
def Aside (T : SymbolTree) (key : List UInt8) : TreePath Nat → Prop
  | [] => True
  | f :: _ => key < T.bytes f.value ↔ f.side = .left

theorem lookFor_spec (h : T.At p x t) (hkey : key.FollowedBy b)
    (hnames : ∀ y ∈ t.toList, (T.name y).FollowedBy b) (hsorted : T.Increasing t.toList)
    (hbetween : T.Between key.bytes p) (haside : T.Aside key.bytes p)
    (hfuel : t.toList.length < fuel) :
    ∃ q y u, lookFor T key fuel x p.top = some (y, TreePath.top q) ∧ T.At q y u ∧
      TreePath.fill q u = p.fill t ∧ (y ≠ nilSym → T.bytes y = key.bytes) ∧
      (y = nilSym → T.Between key.bytes q ∧ T.Aside key.bytes q) := by
  induction t generalizing p x fuel with
  | nil =>
      obtain ⟨k, rfl⟩ := Nat.exists_eq_add_of_lt hfuel
      have hx : x = nilSym := h.tree
      refine ⟨p, x, .nil, ?_, h, rfl, fun hne => absurd hx hne, fun _ => ⟨hbetween, haside⟩⟩
      simp [lookFor, hx]
  | node c l v r ihl ihr =>
      obtain ⟨k, rfl⟩ := Nat.exists_eq_add_of_lt hfuel
      obtain ⟨rfl, hx, -⟩ := h.tree
      simp only [toList, List.mem_append, List.mem_cons] at hnames
      have hname := hnames x (.inr (.inl rfl))
      have hlt := compareKey_lt_zero_iff hkey hname
      have heq := compareKey_eq_zero_iff hkey hname
      simp only [Increasing, toList, List.pairwise_append, List.pairwise_cons] at hsorted
      obtain ⟨hl, ⟨hxr, hr⟩, hlx⟩ := hsorted
      simp only [toList, List.length_append, List.length_cons] at hfuel
      by_cases hfound : compareKey key (T.name x) = 0
      · refine ⟨p, x, _, ?_, h, rfl, fun _ => (heq.1 hfound).symm, fun h0 => absurd h0 hx⟩
        simp [lookFor, hx, hfound]
      · by_cases hleft : compareKey key (T.name x) < 0
        · have hkx := hlt.1 hleft
          have hstep : lookFor T key (l.toList.length + (r.toList.length + 1) + k + 1) x p.top =
              lookFor T key (l.toList.length + (r.toList.length + 1) + k)
                (T.child .left x) (some x) := by
            simp [lookFor, hx, hfound, hleft]
          rw [toList, List.length_append, List.length_cons, hstep]
          refine ihl (At.down (s := .left) h) (fun y hy => hnames y (.inl hy)) hl ?_ ?_ (by omega)
          · refine ⟨hbetween.1, fun y hy => ?_⟩
            simp only [TreePath.after, List.cons_append, List.mem_cons, List.mem_append] at hy
            rcases hy with rfl | hy | hy
            · exact hkx
            · exact List.lt_trans hkx (hxr y hy)
            · exact hbetween.2 y hy
          · exact iff_of_true hkx rfl
        · have hkx : ¬key.bytes < T.bytes x := mt hlt.2 hleft
          have hxk : T.bytes x < key.bytes := by
            refine Decidable.byContradiction fun hge => ?_
            exact mt heq.2 hfound (List.le_antisymm hge hkx)
          have hstep : lookFor T key (l.toList.length + (r.toList.length + 1) + k + 1) x p.top =
              lookFor T key (l.toList.length + (r.toList.length + 1) + k)
                (T.child .right x) (some x) := by
            simp [lookFor, hx, hfound, hleft]
          rw [toList, List.length_append, List.length_cons, hstep]
          refine ihr (At.down (s := .right) h) (fun y hy => hnames y (.inr (.inr hy))) hr ?_ ?_
            (by omega)
          · refine ⟨fun y hy => ?_, hbetween.2⟩
            simp only [TreePath.before, List.mem_append, List.mem_singleton] at hy
            rcases hy with hy | hy | rfl
            · exact hbetween.1 y hy
            · exact List.lt_trans (hlx y hy x List.mem_cons_self) hxk
            · exact hxk
          · exact iff_of_false hkx (by simp)

end SymbolTree

end NewLispNeo
