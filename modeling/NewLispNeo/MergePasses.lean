/-
A bottom-up merge sort over a list: passes that merge neighbouring runs, each run
twice as long as in the pass before.  The comparison is a computation and may raise
an error.
-/
import Mathlib.Data.List.Basic
import NewLispNeo.Effect

namespace BottomUp

variable {ε σ κ β : Type}

/-! ### The computation -/

section Computation

variable (before : κ → κ → Effect ε σ Bool)

/-- Two runs merged: where `before` says so, the first of the left run is next. -/
def merge : List κ → List κ → Effect ε σ (List κ)
  | [], ys => pure ys
  | x :: xs, [] => pure (x :: xs)
  | x :: xs, y :: ys =>
      before x y >>= fun b =>
        if b then merge xs (y :: ys) >>= fun zs => pure (x :: zs)
        else merge (x :: xs) ys >>= fun zs => pure (y :: zs)
termination_by xs ys => xs.length + ys.length

/-- One pass over runs of length `m`; the first argument bounds the number of
merges. -/
def mergePass (m : Nat) : Nat → List κ → Effect ε σ (List κ)
  | 0, _ => fun _ => .timeout
  | _ + 1, [] => pure []
  | fuel + 1, x :: xs =>
      merge before ((x :: xs).take m) (((x :: xs).drop m).take m) >>= fun zs =>
        mergePass m fuel ((x :: xs).drop (2 * m)) >>= fun rest => pure (zs ++ rest)

/-- The passes from the run length `m` on. -/
def passes : Nat → Nat → List κ → Effect ε σ (List κ)
  | 0, _, _ => fun _ => .timeout
  | fuel + 1, m, x =>
      if m < x.length then mergePass before m (x.length + 1) x >>= passes fuel (2 * m)
      else pure x

end Computation

variable {before : κ → κ → Effect ε σ Bool} {s s' : σ} {e : ε}

theorem merge_nil (before : κ → κ → Effect ε σ Bool) (xs : List κ) :
    merge before xs [] = pure xs := by
  cases xs with
  | nil => rw [merge]
  | cons x xs => rw [merge]

/-! ### Nothing is lost -/

theorem merge_perm {xs ys zs : List κ} (h : merge before xs ys s = .value zs s') :
    zs.Perm (xs ++ ys) := by
  induction xs, ys using merge.induct generalizing zs s with
  | case1 ys =>
      rw [merge] at h
      cases h
      exact .refl _
  | case2 x xs =>
      rw [merge] at h
      cases h
      rw [List.append_nil]
  | case3 x xs y ys ihLeft ihRight =>
      rw [merge] at h
      obtain ⟨b, s₁, -, h⟩ := Effect.bind_eq_value_iff.mp h
      cases b with
      | true =>
          obtain ⟨ts, s₂, hts, h⟩ := Effect.bind_eq_value_iff.mp h
          cases h
          exact (ihLeft hts).cons x
      | false =>
          obtain ⟨ts, s₂, hts, h⟩ := Effect.bind_eq_value_iff.mp h
          cases h
          exact ((ihRight hts).cons y).trans List.perm_middle.symm

theorem mergePass_perm {m fuel : Nat} {x x' : List κ}
    (h : mergePass before m fuel x s = .value x' s') : x'.Perm x := by
  induction fuel generalizing x x' s with
  | zero => cases h
  | succ fuel ih =>
      cases x with
      | nil =>
          cases h
          exact .refl _
      | cons a x =>
          rw [mergePass] at h
          obtain ⟨zs, s₁, hzs, h⟩ := Effect.bind_eq_value_iff.mp h
          obtain ⟨rest, s₂, hrest, h⟩ := Effect.bind_eq_value_iff.mp h
          cases h
          have hsplit : (a :: x).take m ++ ((a :: x).drop m).take m ++
              (a :: x).drop (2 * m) = a :: x := by
            rw [List.append_assoc, Nat.two_mul, ← List.drop_drop,
              List.take_append_drop, List.take_append_drop]
          have hperm := (merge_perm hzs).append (ih hrest)
          rwa [hsplit] at hperm

theorem passes_perm {fuel m : Nat} {x x' : List κ}
    (h : passes before fuel m x s = .value x' s') : x'.Perm x := by
  induction fuel generalizing m x s with
  | zero => cases h
  | succ fuel ih =>
      rw [passes] at h
      split at h
      · obtain ⟨x₁, s₁, h₁, h⟩ := Effect.bind_eq_value_iff.mp h
        exact (ih h).trans (mergePass_perm h₁)
      · cases h
        exact .refl _

/-! ### What the comparison keeps -/

theorem merge_keeps {P : σ → Prop} (h : ∀ x y, Effect.Keeps P (before x y))
    (xs ys : List κ) : Effect.Keeps P (merge before xs ys) := by
  induction xs, ys using merge.induct with
  | case1 ys =>
      rw [merge]
      exact Effect.keeps_pure P ys
  | case2 x xs =>
      rw [merge]
      exact Effect.keeps_pure P _
  | case3 x xs y ys ihLeft ihRight =>
      rw [merge]
      refine (h x y).bind fun b => ?_
      cases b with
      | true => exact ihLeft.bind fun zs => Effect.keeps_pure P _
      | false => exact ihRight.bind fun zs => Effect.keeps_pure P _

theorem mergePass_keeps {P : σ → Prop} (h : ∀ x y, Effect.Keeps P (before x y))
    (m fuel : Nat) (x : List κ) : Effect.Keeps P (mergePass before m fuel x) := by
  induction fuel generalizing x with
  | zero => exact fun _ _ => trivial
  | succ fuel ih =>
      cases x with
      | nil => exact Effect.keeps_pure P _
      | cons a x =>
          rw [mergePass]
          exact (merge_keeps h _ _).bind fun zs => (ih _).bind fun rest =>
            Effect.keeps_pure P _

theorem passes_keeps {P : σ → Prop} (h : ∀ x y, Effect.Keeps P (before x y))
    (fuel m : Nat) (x : List κ) : Effect.Keeps P (passes before fuel m x) := by
  induction fuel generalizing m x with
  | zero => exact fun _ _ => trivial
  | succ fuel ih =>
      rw [passes]
      split
      · exact (mergePass_keeps h _ _ _).bind fun x' => ih _ _
      · exact Effect.keeps_pure P _

/-! ### The computation returns -/

section Returns

variable {P : σ → Prop} (h : ∀ x y, Effect.Returns P (before x y))

include h

theorem merge_returns (xs ys : List κ) : Effect.Returns P (merge before xs ys) := by
  induction xs, ys using merge.induct with
  | case1 ys =>
      rw [merge]
      exact Effect.returns_pure P ys
  | case2 x xs =>
      rw [merge]
      exact Effect.returns_pure P _
  | case3 x xs y ys ihLeft ihRight =>
      rw [merge]
      refine (h x y).bind fun b _ => ?_
      cases b with
      | true => exact ihLeft.bind fun zs _ => Effect.returns_pure P _
      | false => exact ihRight.bind fun zs _ => Effect.returns_pure P _

theorem mergePass_returns {m : Nat} (hm : 0 < m) {fuel : Nat} {x : List κ}
    (hfuel : x.length < fuel) : Effect.Returns P (mergePass before m fuel x) := by
  induction fuel generalizing x with
  | zero => omega
  | succ fuel ih =>
      cases x with
      | nil => exact Effect.returns_pure P _
      | cons a x =>
          have hlen : ((a :: x).drop (2 * m)).length < fuel := by
            rw [List.length_drop, List.length_cons]
            rw [List.length_cons] at hfuel
            omega
          rw [mergePass]
          exact (merge_returns h _ _).bind fun zs _ => (ih hlen).bind fun rest _ =>
            Effect.returns_pure P _

theorem passes_returns {fuel m : Nat} (hm : 0 < m) {x : List κ} (hpos : 0 < fuel)
    (hfuel : x.length < m + fuel) : Effect.Returns P (passes before fuel m x) := by
  induction fuel generalizing m x with
  | zero => omega
  | succ fuel ih =>
      rw [passes]
      split
      · refine (mergePass_returns h hm (Nat.lt_succ_self _)).bind fun x' hx' => ?_
        obtain ⟨s, s', hx'⟩ := hx'
        have hlen := (mergePass_perm hx').length_eq
        exact ih (by omega) (by omega) (by omega)
      · exact Effect.returns_pure P _

end Returns

/-! ### The passes of a relation -/

/-- The comparison ends with the verdict of `le`, whatever else it does to a state
with `P`. -/
def Decides (P : σ → Prop) (before : κ → κ → Effect ε σ Bool) (le : κ → κ → Bool) :
    Prop :=
  ∀ x y s, P s → ∃ s', before x y s = .value (le x y) s' ∧ P s'

def passList (le : κ → κ → Bool) (m : Nat) : Nat → List κ → List κ
  | 0, _ => []
  | _ + 1, [] => []
  | fuel + 1, x :: xs =>
      ((x :: xs).take m).merge (((x :: xs).drop m).take m) le ++
        passList le m fuel ((x :: xs).drop (2 * m))

def passesList (le : κ → κ → Bool) : Nat → Nat → List κ → List κ
  | 0, _, x => x
  | fuel + 1, m, x =>
      if m < x.length then passesList le fuel (2 * m) (passList le m (x.length + 1) x)
      else x

variable {le : κ → κ → Bool}

section Value

variable {P : σ → Prop} (h : Decides P before le)

include h

theorem merge_value (xs ys : List κ) (hs : P s) :
    ∃ s', merge before xs ys s = .value (xs.merge ys le) s' ∧ P s' := by
  induction xs, ys using merge.induct generalizing s with
  | case1 ys => exact ⟨s, by rw [merge, List.nil_merge, Effect.pure_apply], hs⟩
  | case2 x xs => exact ⟨s, by rw [merge, List.merge_right, Effect.pure_apply], hs⟩
  | case3 x xs y ys ihLeft ihRight =>
      obtain ⟨s₁, hs₁, hP₁⟩ := h x y s hs
      rw [merge, Effect.bind_of_value hs₁, List.merge]
      cases le x y with
      | true =>
          obtain ⟨s₂, hs₂, hP₂⟩ := ihLeft hP₁
          exact ⟨s₂, Effect.bind_of_value hs₂, hP₂⟩
      | false =>
          obtain ⟨s₂, hs₂, hP₂⟩ := ihRight hP₁
          exact ⟨s₂, Effect.bind_of_value hs₂, hP₂⟩

theorem mergePass_value {m : Nat} (hm : 0 < m) {fuel : Nat} {x : List κ}
    (hfuel : x.length < fuel) (hs : P s) :
    ∃ s', mergePass before m fuel x s = .value (passList le m fuel x) s' ∧ P s' := by
  induction fuel generalizing x s with
  | zero => omega
  | succ fuel ih =>
      cases x with
      | nil => exact ⟨s, rfl, hs⟩
      | cons a x =>
          obtain ⟨s₁, hs₁, hP₁⟩ := merge_value h ((a :: x).take m)
            (((a :: x).drop m).take m) hs
          have hlen : ((a :: x).drop (2 * m)).length < fuel := by
            rw [List.length_drop, List.length_cons]
            rw [List.length_cons] at hfuel
            omega
          obtain ⟨s₂, hs₂, hP₂⟩ := ih hlen hP₁
          refine ⟨s₂, ?_, hP₂⟩
          rw [mergePass, Effect.bind_of_value hs₁, Effect.bind_of_value hs₂]
          rfl

end Value

theorem length_passList {m : Nat} (hm : 0 < m) {fuel : Nat} {x : List κ}
    (hfuel : x.length < fuel) : (passList le m fuel x).length = x.length := by
  induction fuel generalizing x with
  | zero => omega
  | succ fuel ih =>
      cases x with
      | nil => rfl
      | cons a x =>
          have hlen : ((a :: x).drop (2 * m)).length < fuel := by
            rw [List.length_drop, List.length_cons]
            rw [List.length_cons] at hfuel
            omega
          rw [passList, List.length_append, List.length_merge, ih hlen]
          simp only [List.length_take, List.length_drop]
          omega

theorem passes_value {P : σ → Prop} (h : Decides P before le) {fuel m : Nat}
    (hm : 0 < m) {x : List κ} (hpos : 0 < fuel) (hfuel : x.length < m + fuel)
    (hs : P s) :
    ∃ s', passes before fuel m x s = .value (passesList le fuel m x) s' ∧ P s' := by
  induction fuel generalizing m x s with
  | zero => omega
  | succ fuel ih =>
      rw [passes, passesList]
      by_cases hlt : m < x.length
      · obtain ⟨s₁, hs₁, hP₁⟩ := mergePass_value h hm (Nat.lt_succ_self x.length) hs
        have hlen : (passList le m (x.length + 1) x).length = x.length :=
          length_passList hm (Nat.lt_succ_self x.length)
        obtain ⟨s₂, hs₂, hP₂⟩ := ih (by omega : 0 < 2 * m)
          (x := passList le m (x.length + 1) x) (by omega) (by omega) hP₁
        refine ⟨s₂, ?_, hP₂⟩
        rw [if_pos hlt, if_pos hlt, Effect.bind_of_value hs₁, hs₂]
      · refine ⟨s, ?_, hs⟩
        rw [if_neg hlt, if_neg hlt, Effect.pure_apply]

/-! ### Order and stability -/

/-- The elements of a class: each of them is `le` each other. -/
def IsClass (le : κ → κ → Bool) (p : κ → Bool) : Prop :=
  ∀ x y, p x = true → (p y = true ↔ le x y = true ∧ le y x = true)

section Order

variable (trans : ∀ a b c, le a b = true → le b c = true → le a c = true)
  (total : ∀ a b, (le a b || le b a) = true)

include trans

/-- A merge keeps the order within a class: elements of the left run first. -/
theorem filter_merge {p : κ → Bool} (hp : IsClass le p) {xs : List κ} (ys : List κ)
    (hxs : xs.Pairwise (fun a b => le a b = true)) :
    (xs.merge ys le).filter p = xs.filter p ++ ys.filter p := by
  induction xs generalizing ys with
  | nil => simp
  | cons x xs ih =>
      obtain ⟨hx, hxs'⟩ := List.pairwise_cons.mp hxs
      induction ys with
      | nil => simp
      | cons y ys ihRight =>
          by_cases hle : le x y = true
          · rw [List.cons_merge_cons_pos _ _ _ hle]
            by_cases hpx : p x = true
            · rw [List.filter_cons_of_pos hpx, List.filter_cons_of_pos hpx, ih _ hxs',
                List.cons_append]
            · rw [List.filter_cons_of_neg hpx, List.filter_cons_of_neg hpx, ih _ hxs']
          · rw [List.cons_merge_cons_neg _ _ _ hle]
            by_cases hpy : p y = true
            · have hnil : (x :: xs).filter p = [] := by
                refine List.filter_eq_nil_iff.mpr fun a ha hpa => hle ?_
                have hay : le a y = true := ((hp a y hpa).mp hpy).1
                rcases List.mem_cons.mp ha with rfl | ha
                · exact hay
                · exact trans x a y (hx a ha) hay
              rw [List.filter_cons_of_pos hpy, List.filter_cons_of_pos hpy, ihRight,
                hnil, List.nil_append, List.nil_append]
            · rw [List.filter_cons_of_neg hpy, List.filter_cons_of_neg hpy, ihRight]

/-- All runs of length `m` are in order. -/
def RunsSorted (le : κ → κ → Bool) (m : Nat) (x : List κ) : Prop :=
  ∀ i, ((x.drop (i * m)).take m).Pairwise (fun a b => le a b = true)

omit trans in
theorem runsSorted_one (x : List κ) : RunsSorted le 1 x := by
  intro i
  have hlen := List.length_take_le 1 (x.drop (i * 1))
  rcases hrun : (x.drop (i * 1)).take 1 with _ | ⟨a, _ | ⟨b, l⟩⟩
  · exact .nil
  · exact List.pairwise_singleton _ a
  · rw [hrun, List.length_cons, List.length_cons] at hlen
    omega

omit trans in
theorem RunsSorted.drop {m : Nat} {x : List κ} (h : RunsSorted le m x) (k : Nat) :
    RunsSorted le m (x.drop (k * m)) := by
  intro i
  rw [List.drop_drop, ← Nat.add_mul]
  exact h (k + i)

omit trans in
theorem RunsSorted.first {m : Nat} {x : List κ} (h : RunsSorted le m x) :
    (x.take m).Pairwise (fun a b => le a b = true) := by
  have hfirst := h 0
  rwa [Nat.zero_mul, List.drop_zero] at hfirst

omit trans in
theorem RunsSorted.second {m : Nat} {x : List κ} (h : RunsSorted le m x) :
    ((x.drop m).take m).Pairwise (fun a b => le a b = true) := by
  have hsecond := h 1
  rwa [Nat.one_mul] at hsecond

/-- A pass keeps the order within a class. -/
theorem filter_passList {p : κ → Bool} (hp : IsClass le p) {m : Nat} (hm : 0 < m)
    {fuel : Nat} {x : List κ} (hfuel : x.length < fuel) (hx : RunsSorted le m x) :
    (passList le m fuel x).filter p = x.filter p := by
  induction fuel generalizing x with
  | zero => omega
  | succ fuel ih =>
      cases x with
      | nil => rfl
      | cons a x =>
          have hlen : ((a :: x).drop (2 * m)).length < fuel := by
            rw [List.length_drop, List.length_cons]
            rw [List.length_cons] at hfuel
            omega
          rw [passList, List.filter_append, filter_merge trans hp _ hx.first,
            ih hlen (hx.drop 2), ← List.filter_append, ← List.filter_append]
          congr 1
          rw [List.append_assoc, Nat.two_mul, ← List.drop_drop,
            List.take_append_drop, List.take_append_drop]

include total

theorem runsSorted_passList {m : Nat} (hm : 0 < m) {fuel : Nat} {x : List κ}
    (hfuel : x.length < fuel) (hx : RunsSorted le m x) :
    RunsSorted le (2 * m) (passList le m fuel x) := by
  induction fuel generalizing x with
  | zero => omega
  | succ fuel ih =>
      cases x with
      | nil =>
          intro i
          simp [passList]
      | cons a x =>
          have hlen : ((a :: x).drop (2 * m)).length < fuel := by
            rw [List.length_drop, List.length_cons]
            rw [List.length_cons] at hfuel
            omega
          have hrest := ih hlen (hx.drop 2)
          have hmerge := List.pairwise_merge trans total _ _ hx.first hx.second
          have hmlen : (((a :: x).take m).merge (((a :: x).drop m).take m) le).length =
              min (2 * m) (a :: x).length := by
            rw [List.length_merge]
            simp only [List.length_take, List.length_drop]
            omega
          by_cases hlong : 2 * m ≤ (a :: x).length
          · rw [Nat.min_eq_left hlong] at hmlen
            intro i
            cases i with
            | zero =>
                rw [passList, Nat.zero_mul, List.drop_zero,
                  List.take_append_of_le_length (Nat.le_of_eq hmlen.symm),
                  List.take_of_length_le (Nat.le_of_eq hmlen)]
                exact hmerge
            | succ i =>
                have hdrop : (i + 1) * (2 * m) = (((a :: x).take m).merge
                    (((a :: x).drop m).take m) le).length + i * (2 * m) := by
                  rw [hmlen, Nat.succ_mul, Nat.add_comm]
                rw [passList, hdrop, List.drop_length_add_append]
                exact hrest i
          · have hnil : (a :: x).drop (2 * m) = [] :=
              List.drop_of_length_le (by omega)
            have hend : passList le m fuel [] = [] := by
              cases fuel <;> rfl
            intro i
            rw [passList, hnil, hend, List.append_nil]
            exact (hmerge.drop).take

/-- The passes put a list in order. -/
theorem pairwise_passesList {fuel m : Nat} (hm : 0 < m) {x : List κ}
    (hfuel : x.length < m + fuel) (hx : RunsSorted le m x) :
    (passesList le fuel m x).Pairwise (fun a b => le a b = true) := by
  induction fuel generalizing m x with
  | zero =>
      have hfirst := hx.first
      rwa [List.take_of_length_le (by omega)] at hfirst
  | succ fuel ih =>
      rw [passesList]
      split
      · have hsorted := runsSorted_passList trans total hm (Nat.lt_succ_self x.length) hx
        have hlen : (passList le m (x.length + 1) x).length = x.length :=
          length_passList hm (Nat.lt_succ_self x.length)
        exact ih (by omega) (by omega) hsorted
      · have hfirst := hx.first
        rwa [List.take_of_length_le (by omega)] at hfirst

/-- The passes keep the order within a class. -/
theorem filter_passesList {p : κ → Bool} (hp : IsClass le p) {fuel m : Nat}
    (hm : 0 < m) {x : List κ} (hx : RunsSorted le m x) :
    (passesList le fuel m x).filter p = x.filter p := by
  induction fuel generalizing m x with
  | zero => rfl
  | succ fuel ih =>
      rw [passesList]
      split
      · have hsorted := runsSorted_passList trans total hm (Nat.lt_succ_self x.length) hx
        have hfilter := filter_passList trans hp hm (Nat.lt_succ_self x.length) hx
        rw [ih (by omega) hsorted, hfilter]
      · rfl

end Order

/-! ### Comparisons by value -/

/-- A comparison through `f` sorts the images. -/
theorem merge_map (cmp : β → β → Effect ε σ Bool) (f : κ → β) (xs ys : List κ) :
    merge cmp (xs.map f) (ys.map f) =
      merge (fun a b => cmp (f a) (f b)) xs ys >>= fun zs => pure (zs.map f) := by
  induction xs, ys using merge.induct with
  | case1 ys => simp [merge]
  | case2 x xs => simp [merge]
  | case3 x xs y ys ihLeft ihRight =>
      simp only [List.map_cons] at ihLeft ihRight ⊢
      rw [merge, merge, Effect.bind_assoc]
      congr 1
      funext b
      cases b with
      | true => simp [ihLeft, Effect.bind_assoc]
      | false => simp [ihRight, Effect.bind_assoc]

theorem mergePass_map (cmp : β → β → Effect ε σ Bool) (f : κ → β) (m fuel : Nat)
    (x : List κ) :
    mergePass cmp m fuel (x.map f) =
      mergePass (fun a b => cmp (f a) (f b)) m fuel x >>= fun zs => pure (zs.map f) := by
  induction fuel generalizing x with
  | zero => rfl
  | succ fuel ih =>
      cases x with
      | nil => rfl
      | cons a x =>
          rw [List.map_cons, mergePass, mergePass, ← List.map_cons]
          simp only [← List.map_take, ← List.map_drop, merge_map, ih,
            Effect.bind_assoc, Effect.pure_bind, List.map_append]

theorem passes_map (cmp : β → β → Effect ε σ Bool) (f : κ → β) (fuel m : Nat)
    (x : List κ) :
    passes cmp fuel m (x.map f) =
      passes (fun a b => cmp (f a) (f b)) fuel m x >>= fun zs => pure (zs.map f) := by
  induction fuel generalizing m x with
  | zero => rfl
  | succ fuel ih =>
      rw [passes, passes, List.length_map]
      split
      · rw [mergePass_map, Effect.bind_assoc, Effect.bind_assoc]
        congr 1
        funext zs
        rw [Effect.pure_bind, ih]
      · rfl

theorem passes_attach (cmp : κ → κ → Effect ε σ Bool) (fuel m : Nat) (x : List κ) :
    passes cmp fuel m x =
      passes (fun a b : { a // a ∈ x } => cmp a b) fuel m x.attach >>= fun zs =>
        pure (zs.map Subtype.val) := by
  have hmap := passes_map cmp Subtype.val fuel m x.attach
  rwa [List.attach_map_subtype_val] at hmap

/-- Comparisons of the elements that return make a sort that returns. -/
theorem passes_returns_of_mem {P : σ → Prop} {cmp : κ → κ → Effect ε σ Bool}
    {x : List κ} (h : ∀ a ∈ x, ∀ b ∈ x, Effect.Returns P (cmp a b)) (hs : P s) :
    ∃ x' s', passes cmp (x.length + 1) 1 x s = .value x' s' := by
  have hlen : x.attach.length = x.length := List.length_attach
  have hreturns : ∀ a b : { a // a ∈ x }, Effect.Returns P (cmp a b) :=
    fun a b => h a a.2 b b.2
  obtain ⟨zs, s', hzs, -⟩ := passes_returns hreturns Nat.one_pos (x := x.attach)
    (Nat.succ_pos x.length) (by omega) s hs
  rw [passes_attach, Effect.bind_of_value hzs]
  exact ⟨_, s', rfl⟩

/-! ### The sorted list -/

/-- On the elements of `x` the comparison decides the preorder `le`. -/
structure SortsBy (P : σ → Prop) (cmp : κ → κ → Effect ε σ Bool) (le : κ → κ → Bool)
    (x : List κ) : Prop where
  decides : ∀ a ∈ x, ∀ b ∈ x, ∀ s, P s → ∃ s', cmp a b s = .value (le a b) s' ∧ P s'
  trans : ∀ a ∈ x, ∀ b ∈ x, ∀ c ∈ x, le a b = true → le b c = true → le a c = true
  total : ∀ a ∈ x, ∀ b ∈ x, (le a b || le b a) = true

/-- The elements of `x` in order, those of a class as they were. -/
structure SortedStably (le : κ → κ → Bool) (x x' : List κ) : Prop where
  perm : x'.Perm x
  pairwise : x'.Pairwise (fun a b => le a b = true)
  stable : ∀ a ∈ x, x'.filter (fun b => le a b && le b a) =
    x.filter (fun b => le a b && le b a)

/-- A bottom-up merge sort is a stable sort. -/
theorem passes_sortedStably {P : σ → Prop} {cmp : κ → κ → Effect ε σ Bool}
    {le : κ → κ → Bool} {x : List κ} (h : SortsBy P cmp le x) (hs : P s) :
    ∃ x' s', passes cmp (x.length + 1) 1 x s = .value x' s' ∧
      SortedStably le x x' := by
  have htrans : ∀ a b c : { a // a ∈ x }, le a b = true → le b c = true →
      le a c = true := fun a b c => h.trans a a.2 b b.2 c c.2
  have htotal : ∀ a b : { a // a ∈ x }, (le a b || le b a) = true :=
    fun a b => h.total a a.2 b b.2
  have hdecides : Decides P (fun a b : { a // a ∈ x } => cmp a b)
      (fun a b => le a b) := fun a b s => h.decides a a.2 b b.2 s
  have hlen : x.attach.length = x.length := List.length_attach
  obtain ⟨s', hs', -⟩ := passes_value hdecides Nat.one_pos (x := x.attach)
    (Nat.succ_pos x.length) (by omega) hs
  have hmap := congrFun (passes_attach cmp (x.length + 1) 1 x) s
  rw [Effect.bind_of_value hs'] at hmap
  refine ⟨_, s', hmap, passes_perm hmap, ?_, fun a ha => ?_⟩
  · have hpairwise := pairwise_passesList htrans htotal Nat.one_pos
      (by omega : x.attach.length < 1 + (x.length + 1)) (runsSorted_one _)
    exact List.pairwise_map.mpr hpairwise
  · have hclass : IsClass (fun a b : { a // a ∈ x } => le a b)
        (fun b => le a b && le b a) := by
      intro b c hb
      rw [Bool.and_eq_true] at hb ⊢
      constructor
      · rintro ⟨hac, hca⟩
        exact ⟨htrans b ⟨a, ha⟩ c hb.2 hac, htrans c ⟨a, ha⟩ b hca hb.1⟩
      · rintro ⟨hbc, hcb⟩
        exact ⟨htrans ⟨a, ha⟩ b c hb.1 hbc, htrans c b ⟨a, ha⟩ hcb hb.2⟩
    have hfilter : (passesList (fun a b : { a // a ∈ x } => le a b) (x.length + 1) 1
        x.attach).filter (fun b : { a // a ∈ x } => le a b && le b a) =
          x.attach.filter (fun b : { a // a ∈ x } => le a b && le b a) :=
      filter_passesList htrans htotal hclass Nat.one_pos (runsSorted_one x.attach)
    have hx : x.filter (fun b => le a b && le b a) =
        (x.attach.filter (fun b : { a // a ∈ x } => le a b && le b a)).map
          Subtype.val := by
      conv_lhs => rw [← List.attach_map_subtype_val x]
      rw [List.filter_map]
      rfl
    rw [List.filter_map, hx, ← hfilter]
    rfl

end BottomUp
