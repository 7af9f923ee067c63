/-
`binsort`: the loops over the vectors `x` and `y` with their computed bounds, and
the bottom-up merge sort that they carry out.
-/
import Mathlib.Logic.Function.Basic
import NewLispNeo.MergePasses

namespace NewLispNeo

open BottomUp

variable {ε σ κ : Type}

/-- The vector `y`, `none` where it is not written yet. -/
abbrev MergeTarget (κ : Type) := Nat → Option κ

/-- `x[k]`; there is nothing behind the vector. -/
def readAt (x : List κ) (k : Nat) : Effect ε σ κ := fun s =>
  match x[k]? with
  | none => .undefined
  | some c => .value c s

section Loops

variable (before : κ → κ → Effect ε σ Bool) (read : Nat → Effect ε σ κ)

/-- The loop over `j`, `count` rounds of it left; `read k` is `x[k]`. -/
def mergeLoop (kf lf : Nat) :
    Nat → Nat → Nat → Nat → MergeTarget κ → Effect ε σ (MergeTarget κ)
  | 0, _, _, _, y => pure y
  | count + 1, j, k, l, y =>
      if k > kf then
        read l >>= fun c =>
          mergeLoop kf lf count (j + 1) k (l + 1) (Function.update y j (some c))
      else if l > lf then
        read k >>= fun c =>
          mergeLoop kf lf count (j + 1) (k + 1) l (Function.update y j (some c))
      else
        read k >>= fun a => read l >>= fun b => before a b >>= fun v =>
          if v then
            mergeLoop kf lf count (j + 1) (k + 1) l (Function.update y j (some a))
          else mergeLoop kf lf count (j + 1) k (l + 1) (Function.update y j (some b))

/-- The run bounds and the merge of two neighbouring runs of length `m`. -/
def mergeBlock (n m i : Nat) (y : MergeTarget κ) : Effect ε σ (MergeTarget κ) :=
  if i + m ≥ n then
    -- `kf = lf = n; l = lf + 1`, and then `lf = n - 1`
    mergeLoop before read n (n - 1) (n - i) i i (n + 1) y
  else
    let lf := if i + m + m - 1 ≥ n then n - 1 else i + m + m - 1
    mergeLoop before read (i + m - 1) lf (lf + 1 - i) i i (i + m) y

/-- The loop over `i`. -/
def passLoop (n m : Nat) : Nat → Nat → MergeTarget κ → Effect ε σ (MergeTarget κ)
  | 0, _, _ => fun _ => .timeout
  | fuel + 1, i, y =>
      if i < n then
        mergeBlock before read n m i y >>= passLoop n m fuel (i + 2 * m)
      else pure y

end Loops

/-- `for(i = 0; i < n; i++) x[i] = y[i]`, the cells from `i` on. -/
def copyBack (y : MergeTarget κ) : Nat → Nat → Effect ε σ (List κ)
  | 0, _ => pure []
  | n + 1, i => fun s =>
      match y i with
      | none => .undefined
      | some c => (copyBack y n (i + 1) >>= fun x => pure (c :: x)) s

/-- A vector in a memory, `none` while it is not allocated. -/
structure VectorAccess (μ κ : Type) where
  get : μ → Option (List κ)
  set : List κ → μ → μ
  get_set : ∀ x s, get (set x s) = some x
  set_set : ∀ x x' s, set x (set x' s) = set x s
  set_get : ∀ x s, get s = some x → set x s = s

namespace VectorAccess

variable {μ τ : Type} (x : VectorAccess μ κ)

/-- `x[k]` in the memory. -/
def read (k : Nat) : Effect ε (μ × τ) κ := fun s =>
  match x.get s.1 with
  | none => .undefined
  | some cells => readAt cells k s

/-- The vector filled with other cells. -/
def write (cells : List κ) : Effect ε (μ × τ) Unit := fun s =>
  .value () (x.set cells s.1, s.2)

end VectorAccess

section VectorSort

variable {μ τ : Type} (before : κ → κ → Effect ε (μ × τ) Bool) (x : VectorAccess μ κ)

/-- The loop `while(m < n)`. -/
def binsortLoop (n : Nat) : Nat → Nat → Effect ε (μ × τ) Unit
  | 0, _ => fun _ => .timeout
  | fuel + 1, m =>
      if m < n then
        passLoop before x.read n m (n + 1) 0 (fun _ => none) >>= fun y =>
          copyBack y n 0 >>= fun cells => x.write cells >>= fun _ =>
            binsortLoop n fuel (2 * m)
      else pure ()

/-- `binsort` of the vector `x` of length `n`. -/
def binsort (n : Nat) : Effect ε (μ × τ) Unit := binsortLoop before x n (n + 1) 1

end VectorSort

/-! ### The runs of a vector -/

/-- The cells `x[a]`, …, `x[b - 1]`. -/
def vectorRun (x : List κ) (a b : Nat) : List κ := (x.take b).drop a

/-- The vector `y` with the cells `zs` from `j` on. -/
def writeRun (y : MergeTarget κ) (j : Nat) : List κ → MergeTarget κ
  | [] => y
  | c :: zs => writeRun (Function.update y j (some c)) (j + 1) zs

variable {before : κ → κ → Effect ε σ Bool} {x : List κ}

theorem vectorRun_nil {a b : Nat} (h : b ≤ a) : vectorRun x a b = [] := by
  refine List.drop_of_length_le ?_
  exact Nat.le_trans (List.length_take_le b x) h

/-- A run with a first cell. -/
theorem vectorRun_cons {a b : Nat} (hab : a < b) (hb : b ≤ x.length) :
    ∃ c, x[a]? = some c ∧ vectorRun x a b = c :: vectorRun x (a + 1) b := by
  have hlt : a < (x.take b).length := by
    rw [List.length_take_of_le hb]
    exact hab
  refine ⟨x[a], List.getElem?_eq_getElem (by omega), ?_⟩
  rw [vectorRun, List.drop_eq_getElem_cons hlt, List.getElem_take, vectorRun]

theorem readAt_of_some {k : Nat} {c : κ} (h : x[k]? = some c) {β : Type}
    (f : κ → Effect ε σ β) : readAt x k >>= f = f c := by
  funext s
  have hread : (readAt x k : Effect ε σ κ) s = .value c s := by
    rw [readAt, h]
  exact Effect.bind_of_value hread

theorem writeRun_append (y : MergeTarget κ) (j : Nat) (zs ts : List κ) :
    writeRun y j (zs ++ ts) = writeRun (writeRun y j zs) (j + zs.length) ts := by
  induction zs generalizing y j with
  | nil => rfl
  | cons c zs ih =>
      rw [List.cons_append, writeRun, writeRun, ih, List.length_cons]
      congr 1
      omega

theorem writeRun_of_lt (y : MergeTarget κ) {j i : Nat} (h : i < j) (zs : List κ) :
    writeRun y j zs i = y i := by
  induction zs generalizing y j with
  | nil => rfl
  | cons c zs ih =>
      rw [writeRun, ih _ (by omega), Function.update_of_ne (by omega)]

/-- The loop over `j` merges the rests of the two runs. -/
theorem mergeLoop_eq {kf lf : Nat} (hkf : kf < x.length) (hlf : lf < x.length)
    {count j k l : Nat} (hk : k ≤ kf + 1) (hl : l ≤ lf + 1)
    (hcount : count = kf + 1 - k + (lf + 1 - l)) (y : MergeTarget κ) :
    mergeLoop before (readAt x) kf lf count j k l y =
      merge before (vectorRun x k (kf + 1)) (vectorRun x l (lf + 1)) >>= fun zs =>
        pure (writeRun y j zs) := by
  induction count generalizing j k l y with
  | zero =>
      rw [vectorRun_nil (by omega), vectorRun_nil (by omega), merge]
      rfl
  | succ count ih =>
      rw [mergeLoop]
      by_cases hkend : k > kf
      · obtain ⟨c, hc, hrun⟩ := vectorRun_cons (by omega : l < lf + 1) hlf
        rw [if_pos hkend, readAt_of_some hc, ih hk (by omega) (by omega),
          vectorRun_nil (by omega), hrun, merge, merge]
        rfl
      · obtain ⟨a, ha, hleft⟩ := vectorRun_cons (by omega : k < kf + 1) hkf
        rw [if_neg hkend]
        by_cases hlend : l > lf
        · rw [if_pos hlend, readAt_of_some ha, ih (by omega) hl (by omega), hleft,
            vectorRun_nil (by omega : lf + 1 ≤ l), merge_nil, merge_nil]
          rfl
        · obtain ⟨b, hb, hright⟩ := vectorRun_cons (by omega : l < lf + 1) hlf
          rw [if_neg hlend, readAt_of_some ha, readAt_of_some hb, hleft, hright, merge,
            Effect.bind_assoc]
          congr 1
          funext v
          cases v with
          | true =>
              rw [if_pos rfl, if_pos rfl, ih (by omega) hl (by omega), hright,
                Effect.bind_assoc]
              rfl
          | false =>
              rw [if_neg Bool.false_ne_true, if_neg Bool.false_ne_true,
                ih hk (by omega) (by omega), hleft, Effect.bind_assoc]
              rfl

/-- A run without a second one is copied. -/
theorem mergeLoop_copy {kf lf count k l : Nat} (hk : k + count ≤ x.length)
    (hkf : x.length ≤ kf) (hl : lf < l) (j : Nat) (y : MergeTarget κ) :
    mergeLoop before (readAt x) kf lf count j k l y =
      pure (writeRun y j (vectorRun x k (k + count))) := by
  induction count generalizing j k y with
  | zero =>
      rw [vectorRun_nil (by omega)]
      rfl
  | succ count ih =>
      obtain ⟨a, ha, hrun⟩ := vectorRun_cons (by omega : k < k + (count + 1)) hk
      have hkend : ¬ k > kf := by omega
      have hend : k + 1 + count = k + (count + 1) := by omega
      rw [mergeLoop, if_neg hkend, if_pos hl, readAt_of_some ha, ih (by omega), hrun,
        hend]
      rfl

/-- A block is the merge of the two runs that start at `i`. -/
theorem mergeBlock_eq {m i : Nat} (hm : 0 < m) (hi : i < x.length)
    (y : MergeTarget κ) :
    mergeBlock before (readAt x) x.length m i y =
      merge before ((x.drop i).take m) (((x.drop i).drop m).take m) >>= fun zs =>
        pure (writeRun y i zs) := by
  have hrun : ∀ a b, a ≤ b → vectorRun x a b = (x.drop a).take (b - a) := by
    intro a b hab
    rw [vectorRun, List.drop_take]
  rw [mergeBlock, List.drop_drop]
  by_cases hshort : i + m ≥ x.length
  · have hall : x.length - i ≤ m := by omega
    simp only [if_pos hshort]
    rw [mergeLoop_copy (by omega) (Nat.le_refl _) (by omega), hrun _ _ (by omega),
      List.drop_of_length_le hshort, List.take_nil, merge_nil, Nat.add_sub_cancel_left,
      List.take_of_length_le (Nat.le_of_eq List.length_drop),
      List.take_of_length_le (by rw [List.length_drop]; exact hall)]
    rfl
  · simp only [if_neg hshort]
    -- the second run may end with the vector
    obtain ⟨lf, hlf, hlt, hend⟩ : ∃ lf, (if i + m + m - 1 ≥ x.length then x.length - 1
        else i + m + m - 1) = lf ∧ lf < x.length ∧
        min (lf + 1 - (i + m)) (x.length - (i + m)) = min m (x.length - (i + m)) ∧
        i + m ≤ lf := by
      split
      · exact ⟨_, rfl, by omega, by omega, by omega⟩
      · exact ⟨_, rfl, by omega, by omega, by omega⟩
    have hsecond : (x.drop (i + m)).take (lf + 1 - (i + m)) = (x.drop (i + m)).take m := by
      rw [List.take_eq_take_iff, List.length_drop]
      exact hend.1
    have hfirst : i + m - 1 + 1 = i + m := by omega
    rw [hlf, mergeLoop_eq (by omega) hlt (by omega) (by omega) (by omega), hfirst,
      hrun _ _ (by omega), hrun _ _ (by omega), hsecond, Nat.add_sub_cancel_left]

/-- The loop over `i` is a pass over what lies behind `i`. -/
theorem passLoop_eq {m : Nat} (hm : 0 < m) (fuel i : Nat) (y : MergeTarget κ) :
    passLoop before (readAt x) x.length m fuel i y =
      mergePass before m fuel (x.drop i) >>= fun zs => pure (writeRun y i zs) := by
  induction fuel generalizing i y with
  | zero => rfl
  | succ fuel ih =>
      rw [passLoop]
      by_cases hi : i < x.length
      · obtain ⟨a, l, hdrop⟩ : ∃ a l, x.drop i = a :: l :=
          List.exists_cons_of_ne_nil (by
            rw [Ne, List.drop_eq_nil_iff]
            omega)
        rw [if_pos hi, mergeBlock_eq hm hi, hdrop, mergePass, ← hdrop, Effect.bind_assoc,
          Effect.bind_assoc]
        funext s
        refine Effect.bind_congr fun zs s' hzs => ?_
        have hlen := (merge_perm hzs).length_eq
        rw [List.length_append, List.length_take, List.length_take, List.length_drop,
          List.length_drop, List.length_drop] at hlen
        rw [Effect.pure_bind, ih, Effect.bind_assoc, List.drop_drop]
        by_cases hfull : i + 2 * m ≤ x.length
        · have hzlen : zs.length = 2 * m := by omega
          simp only [Effect.pure_bind, writeRun_append, hzlen]
        · have hnil : x.drop (i + 2 * m) = [] := List.drop_of_length_le (by omega)
          rw [hnil]
          cases fuel with
          | zero => rfl
          | succ fuel => simp only [mergePass, Effect.pure_bind, writeRun, List.append_nil]
      · rw [if_neg hi, List.drop_of_length_le (by omega), mergePass]
        rfl

theorem copyBack_writeRun (y : MergeTarget κ) (zs : List κ) (i : Nat) :
    (copyBack (writeRun y i zs) zs.length i : Effect ε σ (List κ)) = pure zs := by
  induction zs generalizing y i with
  | nil => rfl
  | cons c zs ih =>
      have hfirst : writeRun (Function.update y i (some c)) (i + 1) zs i = some c := by
        rw [writeRun_of_lt _ (Nat.lt_succ_self i), Function.update_self]
      funext s
      simp only [List.length_cons, writeRun, copyBack, hfirst, ih]
      rfl

/-! ### The vector in the memory -/

section Memory

variable {μ τ : Type} {P : τ → Prop} {before : κ → κ → Effect ε (μ × τ) Bool}
  {before' : κ → κ → Effect ε τ Bool} {s : μ} {cells : List κ}

theorem mem_of_readAt {k : Nat} {c : κ} (h : ∃ t t' : τ,
    (readAt cells k : Effect ε τ κ) t = .value c t') : c ∈ cells := by
  obtain ⟨t, t', h⟩ := h
  rw [readAt] at h
  split at h
  · cases h
  · rename_i hc
    cases h
    exact List.mem_of_getElem? hc

section Loops

variable (h : ∀ a ∈ cells, ∀ b ∈ cells, Effect.ActsAs P s (before a b) (before' a b))
  {read : Nat → Effect ε (μ × τ) κ}
  (hread : ∀ k, Effect.ActsAs P s (read k) (readAt cells k))

include h hread

theorem mergeLoop_actsAs (kf lf count j k l : Nat) (y : MergeTarget κ) :
    Effect.ActsAs P s (mergeLoop before read kf lf count j k l y)
      (mergeLoop before' (readAt cells) kf lf count j k l y) := by
  induction count generalizing j k l y with
  | zero => exact Effect.actsAs_pure P s y
  | succ count ih =>
      rw [mergeLoop, mergeLoop]
      split
      · exact (hread l).bind fun c _ => ih _ _ _ _
      split
      · exact (hread k).bind fun c _ => ih _ _ _ _
      refine (hread k).bind fun a ha => (hread l).bind fun b hb => ?_
      refine (h a (mem_of_readAt ha) b (mem_of_readAt hb)).bind fun v _ => ?_
      cases v with
      | true => exact ih _ _ _ _
      | false => exact ih _ _ _ _

theorem mergeBlock_actsAs (n m i : Nat) (y : MergeTarget κ) :
    Effect.ActsAs P s (mergeBlock before read n m i y)
      (mergeBlock before' (readAt cells) n m i y) := by
  rw [mergeBlock, mergeBlock]
  split
  · exact mergeLoop_actsAs h hread _ _ _ _ _ _ _
  · exact mergeLoop_actsAs h hread _ _ _ _ _ _ _

theorem passLoop_actsAs (n m fuel i : Nat) (y : MergeTarget κ) :
    Effect.ActsAs P s (passLoop before read n m fuel i y)
      (passLoop before' (readAt cells) n m fuel i y) := by
  induction fuel generalizing i y with
  | zero => exact fun _ _ => ⟨rfl, trivial⟩
  | succ fuel ih =>
      rw [passLoop, passLoop]
      split
      · exact (mergeBlock_actsAs h hread _ _ _ _).bind fun y _ => ih _ _
      · exact Effect.actsAs_pure P s y

end Loops

variable {x : VectorAccess μ κ}

theorem read_actsAs (h : x.get s = some cells) (k : Nat) :
    Effect.ActsAs P s (x.read k : Effect ε (μ × τ) κ) (readAt cells k) := by
  intro t ht
  simp only [VectorAccess.read, h, readAt, Effect.second]
  cases cells[k]? with
  | none => exact ⟨rfl, trivial⟩
  | some c => exact ⟨rfl, ht⟩

/-- The end of a merge sort with its list in the vector, where an error leaves
`cells`. -/
def VectorAccess.store (x : VectorAccess μ κ) (s : μ) (cells : List κ) :
    Ending ε τ (List κ) → Ending ε (μ × τ) Unit
  | .value cells t => .value () (x.set cells s, t)
  | .error e t => .error e (x.set cells s, t)
  | .undefined => .undefined
  | .timeout => .timeout

theorem VectorAccess.store_set (x : VectorAccess μ κ) (s : μ) (cells zs : List κ)
    (r : Ending ε τ (List κ)) : x.store (x.set zs s) cells r = x.store s cells r := by
  cases r with
  | value a t => simp only [VectorAccess.store, x.set_set]
  | error e t => simp only [VectorAccess.store, x.set_set]
  | undefined => rfl
  | timeout => rfl

/-- One pass over the vector in the memory. -/
theorem passLoop_vector
    (h : ∀ a ∈ cells, ∀ b ∈ cells, Effect.ActsAs P s (before a b) (before' a b))
    (hcells : x.get s = some cells) {m : Nat} (hm : 0 < m) :
    Effect.ActsAs P s
      (passLoop before x.read cells.length m (cells.length + 1) 0 (fun _ => none) >>=
        fun y => copyBack y cells.length 0)
      (mergePass before' m (cells.length + 1) cells) := by
  have hpass := passLoop_actsAs h (read_actsAs hcells) cells.length m
    (cells.length + 1) 0 (fun _ => none)
  have hcopy : mergePass before' m (cells.length + 1) cells =
      passLoop before' (readAt cells) cells.length m (cells.length + 1) 0
        (fun _ => none) >>= fun y => copyBack y cells.length 0 := by
    rw [passLoop_eq hm, List.drop_zero, Effect.bind_assoc]
    funext t
    conv_lhs => rw [← Effect.bind_pure (mergePass before' m (cells.length + 1) cells)]
    refine Effect.bind_congr fun zs t' hzs => ?_
    rw [Effect.pure_bind, ← (mergePass_perm hzs).length_eq, copyBack_writeRun]
  rw [hcopy]
  refine hpass.bind fun y _ => ?_
  generalize 0 = i
  induction cells.length generalizing i with
  | zero => exact Effect.actsAs_pure P s []
  | succ n ih =>
      intro t ht
      simp only [copyBack, Effect.second]
      cases y i with
      | none => exact ⟨rfl, trivial⟩
      | some c => exact ((ih (i + 1)).bind fun x _ => Effect.actsAs_pure P s _) t ht

/-- `binsort` carries out the passes on the vector; a failing comparison leaves the
cells in some order. -/
theorem binsortLoop_eq (h : ∀ s, ∀ a ∈ cells, ∀ b ∈ cells,
      Effect.ActsAs P s (before a b) (before' a b))
    (fuel : Nat) {m : Nat} (hm : 0 < m) {cells₁ : List κ} (hperm : cells₁.Perm cells)
    (hcells : x.get s = some cells₁) {t : τ} (ht : P t) :
    ∃ cells', cells'.Perm cells ∧
      binsortLoop before x cells.length fuel m (s, t) =
        x.store s cells' (passes before' fuel m cells₁ t) := by
  induction fuel generalizing m s cells₁ t with
  | zero => exact ⟨cells, .refl _, rfl⟩
  | succ fuel ih =>
      rw [binsortLoop, passes, ← hperm.length_eq]
      by_cases hlt : m < cells₁.length
      · rw [if_pos hlt, if_pos hlt, ← Effect.bind_assoc]
        have hmem : ∀ a ∈ cells₁, ∀ b ∈ cells₁,
            Effect.ActsAs P s (before a b) (before' a b) := fun a ha b hb =>
          h s a (hperm.mem_iff.mp ha) b (hperm.mem_iff.mp hb)
        obtain ⟨hpass, hend⟩ := passLoop_vector hmem hcells hm t ht
        cases hzs : mergePass before' m (cells₁.length + 1) cells₁ t with
        | value zs t' =>
            rw [Effect.second, hzs] at hpass
            rw [hzs] at hend
            obtain ⟨cells', hperm', heq⟩ := ih (by omega : 0 < 2 * m)
              ((mergePass_perm hzs).trans hperm) (x.get_set zs s) hend
            rw [Effect.bind_of_value hpass, Effect.bind_of_value hzs]
            rw [x.store_set, ← hperm.length_eq] at heq
            exact ⟨cells', hperm', heq⟩
        | error e t' =>
            rw [Effect.second, hzs] at hpass
            refine ⟨cells₁, hperm, ?_⟩
            rw [Effect.bind_of_error hpass, Effect.bind_of_error hzs,
              VectorAccess.store, x.set_get cells₁ s hcells]
        | undefined =>
            rw [Effect.second, hzs] at hpass
            refine ⟨cells, .refl _, ?_⟩
            rw [Effect.bind_of_undefined hpass, Effect.bind_of_undefined hzs]
            rfl
        | timeout =>
            rw [Effect.second, hzs] at hpass
            refine ⟨cells, .refl _, ?_⟩
            rw [Effect.bind_of_timeout hpass, Effect.bind_of_timeout hzs]
            rfl
      · rw [if_neg hlt, if_neg hlt]
        refine ⟨cells, .refl _, ?_⟩
        simp only [Effect.pure_apply, VectorAccess.store, x.set_get cells₁ s hcells]

end Memory

end NewLispNeo
