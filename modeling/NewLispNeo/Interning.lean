/-
A pool that stores a value only if no value in it counts as the same, where values may
count as the same and still differ.
-/
import Mathlib.Data.List.Forall2
import Mathlib.Data.List.Induction

namespace Interning

universe u

variable {α : Type u} (same : α → α → Bool)

/-- The place of a value in the pool, and the pool with it. -/
def intern (pool : List α) (val : α) : ℕ × List α :=
  match pool.findIdx? (same · val) with
  | some i => (i, pool)
  | none => (pool.length, pool ++ [val])

/-- The values that neither one before nor an earlier one counts as the same as. -/
def freshAfter (before : List α) : List α → List α
  | [] => []
  | val :: vals =>
      if before.any (same · val) then freshAfter (before ++ [val]) vals
      else val :: freshAfter (before ++ [val]) vals

/-- The values that no earlier one counts as the same as. -/
def fresh (vals : List α) : List α := freshAfter same [] vals

/-- The places of some values stored one after the other, and the pool with them. -/
def internAll (pool : List α) (vals : List α) : List ℕ × List α :=
  vals.foldl (fun (places, pool) val =>
    (places ++ [(intern same pool val).1], (intern same pool val).2)) ([], pool)

/-- Values stored at these places are found again, when a place past the bound is taken
modulo the bound. -/
def Kept (identical : α → α → Prop) (bound : ℕ) (pool : List α) (places : List ℕ)
    (vals : List α) : Prop :=
  List.Forall₂ (fun i val => ∃ k, pool[i % bound]? = some k ∧ identical k val) places vals

/-- The first value that counts as the same as a later one is identical to it. -/
def FirstAgrees (identical : α → α → Prop) (vals : List α) : Prop :=
  ∀ before val, before ++ [val] <+: vals →
    ∀ k, before.find? (same · val) = some k → identical k val

/-- A place past the bound leads to an identical value. -/
def Wraps (identical : α → α → Prop) (bound : ℕ) (pool : List α) : Prop :=
  ∀ i val, pool[i]? = some val → ∃ k, pool[i % bound]? = some k ∧ identical k val

variable {same} {pool vals : List α} {val : α}

theorem internAll_nil : internAll same pool [] = ([], pool) := rfl

theorem internAll_concat : internAll same pool (vals ++ [val]) =
    ((internAll same pool vals).1 ++ [(intern same (internAll same pool vals).2 val).1],
      (intern same (internAll same pool vals).2 val).2) := by
  simp [internAll]

theorem freshAfter_concat {before : List α} : freshAfter same before (vals ++ [val]) =
    freshAfter same before vals ++
      if (before ++ vals).any (same · val) then [] else [val] := by
  induction vals generalizing before with
  | nil =>
      rw [List.nil_append, List.append_nil]
      simp only [freshAfter]
      split <;> rfl
  | cons v vals ih =>
      have hassoc : before ++ v :: vals = before ++ [v] ++ vals := by simp
      rw [List.cons_append, freshAfter, freshAfter, ih, hassoc]
      split <;> rfl

theorem fresh_concat : fresh same (vals ++ [val]) =
    fresh same vals ++ if vals.any (same · val) then [] else [val] := freshAfter_concat

theorem internAll_append (more : List α) : internAll same pool (vals ++ more) =
    ((internAll same pool vals).1 ++
        (internAll same (internAll same pool vals).2 more).1,
      (internAll same (internAll same pool vals).2 more).2) := by
  induction more using List.reverseRecOn with
  | nil => simp [internAll_nil]
  | append_singleton more val ih =>
      rw [← List.append_assoc, internAll_concat, internAll_concat, ih]
      simp only [List.append_assoc]

theorem prefix_intern (same : α → α → Bool) (pool : List α) (val : α) :
    pool <+: (intern same pool val).2 := by
  unfold intern
  split
  · exact List.prefix_rfl
  · exact List.prefix_append _ _

theorem length_internAll : (internAll same pool vals).1.length = vals.length := by
  induction vals using List.reverseRecOn with
  | nil => rfl
  | append_singleton vals val ih => simp [internAll_concat, ih]

/-- A value that is stored is at its place, or one that counts as the same is. -/
theorem intern_cases (same : α → α → Bool) (pool : List α) (val : α) :
    (∃ k, pool.find? (same · val) = some k ∧ (intern same pool val).2 = pool ∧
      pool[(intern same pool val).1]? = some k) ∨
    (pool.find? (same · val) = none ∧ (intern same pool val).2 = pool ++ [val] ∧
      (intern same pool val).1 = pool.length) := by
  unfold intern
  cases hfound : pool.findIdx? (same · val) with
  | none =>
      right
      rw [List.findIdx?_eq_none_iff] at hfound
      exact ⟨List.find?_eq_none.mpr fun k hk => by simp [hfound k hk], rfl, rfl⟩
  | some i =>
      left
      obtain ⟨hi, hsame, hbefore⟩ := List.findIdx?_eq_some_iff_getElem.mp hfound
      refine ⟨pool[i], ?_, rfl, List.getElem?_eq_getElem hi⟩
      rw [List.find?_eq_some_iff_getElem]
      exact ⟨hsame, i, hi, rfl, fun j hj => by simpa using hbefore j hj⟩

theorem getElem?_of_prefix {more : List α} {i : ℕ} {k : α} (h : pool <+: more)
    (hk : pool[i]? = some k) : more[i]? = some k := by
  obtain ⟨rest, rfl⟩ := h
  rw [List.getElem?_append_left (List.getElem?_eq_some_iff.mp hk).1, hk]

/-- Every value of the pool is at the place of one of the values stored. -/
theorem stored_of_mem {i : ℕ} {k : α} (hk : (internAll same [] vals).2[i]? = some k) :
    (i, k) ∈ (internAll same [] vals).1.zip vals := by
  induction vals using List.reverseRecOn with
  | nil => simp [internAll_nil] at hk
  | append_singleton vals val ih =>
      rw [internAll_concat] at hk ⊢
      rw [List.zip_append length_internAll]
      rcases intern_cases same (internAll same [] vals).2 val
        with ⟨-, -, hpool, -⟩ | ⟨-, hpool, hplace⟩
      · rw [hpool] at hk
        exact List.mem_append_left _ (ih hk)
      · rw [hpool] at hk
        rw [hplace]
        by_cases hi : i < (internAll same [] vals).2.length
        · rw [List.getElem?_append_left hi] at hk
          exact List.mem_append_left _ (ih hk)
        · rw [List.getElem?_append_right (by omega), List.getElem?_singleton] at hk
          split at hk
          · obtain rfl := Option.some.inj hk
            have hlast : i = (internAll same [] vals).2.length := by omega
            rw [hlast]
            exact List.mem_append_right _ List.mem_cons_self
          · cases hk

section Kept

variable {identical : α → α → Prop} {bound : ℕ}

theorem kept_iff : Kept identical bound pool (internAll same [] vals).1 vals ↔
    ∀ i val, (i, val) ∈ (internAll same [] vals).1.zip vals →
      ∃ k, pool[i % bound]? = some k ∧ identical k val := by
  unfold Kept
  rw [List.forall₂_iff_zip]
  exact ⟨fun h i val hmem => h.2 hmem, fun h => ⟨length_internAll, fun hmem => h _ _ hmem⟩⟩

/-- Each value is identical to the one at its place. -/
def Found (same : α → α → Bool) (identical : α → α → Prop) (vals : List α) : Prop :=
  ∀ i val, (i, val) ∈ (internAll same [] vals).1.zip vals →
    ∃ k, (internAll same [] vals).2[i]? = some k ∧ identical k val

theorem mem_zip_concat {i : ℕ} {v : α} :
    (i, v) ∈ (internAll same [] (vals ++ [val])).1.zip (vals ++ [val]) ↔
      (i, v) ∈ (internAll same [] vals).1.zip vals ∨
        i = (intern same (internAll same [] vals).2 val).1 ∧ v = val := by
  rw [internAll_concat, List.zip_append length_internAll, List.mem_append]
  simp

theorem pool_concat : (internAll same [] (vals ++ [val])).2 =
    (intern same (internAll same [] vals).2 val).2 := by
  rw [internAll_concat]

theorem place_lt {i : ℕ} (hmem : (i, val) ∈ (internAll same [] vals).1.zip vals) :
    i < (internAll same [] vals).2.length := by
  induction vals using List.reverseRecOn with
  | nil => simp [internAll_nil] at hmem
  | append_singleton vals v ih =>
      rw [pool_concat]
      rcases mem_zip_concat.mp hmem with hmem | ⟨rfl, rfl⟩
      · exact Nat.lt_of_lt_of_le (ih hmem) (prefix_intern _ _ _).length_le
      · rcases intern_cases same (internAll same [] vals).2 val
          with ⟨k, -, hpool, hk⟩ | ⟨-, hpool, hplace⟩
        · rw [hpool]
          exact (List.getElem?_eq_some_iff.mp hk).1
        · rw [hpool, hplace, List.length_append]
          exact Nat.lt_succ_self _

theorem Found.of_concat (h : Found same identical (vals ++ [val])) :
    Found same identical vals := by
  intro i v hmem
  obtain ⟨k, hk, hident⟩ := h i v (mem_zip_concat.mpr (.inl hmem))
  obtain ⟨rest, hrest⟩ := prefix_intern same
    (internAll same [] vals).2 val
  rw [pool_concat, ← hrest, List.getElem?_append_left (place_lt hmem)] at hk
  exact ⟨k, hk, hident⟩

/-- The pool has the first value of each kind. -/
theorem Found.find?_pool (hrespects : ∀ k k' v, identical k k' → same k v = same k' v)
    (h : Found same identical vals) (v : α) :
    (internAll same [] vals).2.find? (same · v) = vals.find? (same · v) := by
  induction vals using List.reverseRecOn with
  | nil => rfl
  | append_singleton vals val ih =>
      rw [pool_concat, List.find?_append, ← ih h.of_concat]
      rcases intern_cases same (internAll same [] vals).2 val
        with ⟨k, hk, hpool, hplace⟩ | ⟨-, hpool, -⟩
      · rw [hpool]
        -- The value is identical to one of the pool, so that one is found if it is.
        obtain ⟨k', hk', hident⟩ := h _ val (mem_zip_concat.mpr (.inr ⟨rfl, rfl⟩))
        rw [pool_concat, hpool, hplace] at hk'
        obtain rfl := Option.some.inj hk'
        cases hfound : (internAll same [] vals).2.find? (same · v) with
        | some _ => rfl
        | none =>
            have hk := List.find?_eq_none.mp hfound k (List.mem_of_find?_eq_some hk)
            rw [hrespects k val v hident] at hk
            simp [hk]
      · rw [hpool, List.find?_append]

/-- Values are found exactly if the first that counts as the same as another one is
identical to it. -/
theorem found_iff (hrefl : ∀ v, identical v v)
    (hrespects : ∀ k k' v, identical k k' → same k v = same k' v) :
    Found same identical vals ↔ FirstAgrees same identical vals := by
  induction vals using List.reverseRecOn with
  | nil =>
      constructor
      · intro _ before val hpre
        simp at hpre
      · intro _ i val hmem
        simp [internAll_nil] at hmem
  | append_singleton vals val ih =>
      constructor
      · intro h before v hpre k hk
        rcases List.prefix_concat_iff.mp hpre with heq | hpre
        · obtain ⟨rfl, heq⟩ := List.append_inj' heq rfl
          obtain rfl : v = val := by simpa using heq
          rw [← h.of_concat.find?_pool hrespects] at hk
          obtain ⟨k', hk', hident⟩ := h _ v (mem_zip_concat.mpr (.inr ⟨rfl, rfl⟩))
          rcases intern_cases same (internAll same [] before).2 v with
            ⟨k₁, hk₁, hpool, hplace⟩ | ⟨hnone, -, -⟩
          · rw [pool_concat, hpool, hplace] at hk'
            rw [hk] at hk₁
            obtain rfl := Option.some.inj hk₁
            obtain rfl := Option.some.inj hk'
            exact hident
          · rw [hnone] at hk
            cases hk
        · exact ih.mp h.of_concat before v hpre k hk
      · intro h
        have hvals : Found same identical vals := ih.mpr fun before v hpre =>
          h before v (hpre.trans (List.prefix_append _ _))
        intro i v hmem
        rcases mem_zip_concat.mp hmem with hmem | ⟨rfl, rfl⟩
        · obtain ⟨k, hk, hident⟩ := hvals i v hmem
          rw [pool_concat]
          exact ⟨k, getElem?_of_prefix (prefix_intern _ _ _) hk, hident⟩
        · rw [pool_concat]
          rcases intern_cases same (internAll same [] vals).2 v with
            ⟨k, hk, hpool, hplace⟩ | ⟨-, hpool, hplace⟩
          · rw [hvals.find?_pool hrespects] at hk
            rw [hpool]
            exact ⟨k, hplace, h vals v List.prefix_rfl k hk⟩
          · rw [hpool, hplace]
            exact ⟨v, by simp, hrefl v⟩

/-- When what is found is identical, what is stored are the values that are new. -/
theorem Found.pool_eq (hrespects : ∀ k k' v, identical k k' → same k v = same k' v)
    (h : Found same identical vals) : (internAll same [] vals).2 = fresh same vals := by
  induction vals using List.reverseRecOn with
  | nil => rfl
  | append_singleton vals val ih =>
      have hvals := h.of_concat
      have hfind := hvals.find?_pool hrespects val
      rw [pool_concat, fresh_concat, ← ih hvals]
      rcases intern_cases same (internAll same [] vals).2 val
        with ⟨k, hk, hpool, -⟩ | ⟨hnone, hpool, -⟩
      · rw [hfind] at hk
        have hsame : same k val = true := by simpa using List.find?_some hk
        have hany : vals.any (same · val) = true :=
          List.any_eq_true.mpr ⟨k, List.mem_of_find?_eq_some hk, hsame⟩
        rw [hpool, if_pos hany, List.append_nil]
      · rw [hfind, List.find?_eq_none] at hnone
        have hany : ¬ vals.any (same · val) = true := by
          rw [List.any_eq_true]
          rintro ⟨k, hk, hsame⟩
          exact hnone k hk hsame
        rw [hpool, if_neg hany]

/-- Values are kept exactly if the first that counts as the same as another one is
identical to it, and a new value past the bound is identical to what its place leads to. -/
theorem kept_iff_firstAgrees (hident : Equivalence identical)
    (hrespects : ∀ k k' v, identical k k' → same k v = same k' v) :
    Kept identical bound (internAll same [] vals).2 (internAll same [] vals).1 vals ↔
      FirstAgrees same identical vals ∧ Wraps identical bound (fresh same vals) := by
  rw [kept_iff, ← found_iff hident.refl hrespects]
  constructor
  · intro h
    have hwraps : Wraps identical bound (internAll same [] vals).2 :=
      fun i val hval => h i val (stored_of_mem hval)
    have hfound : Found same identical vals := by
      intro i val hmem
      obtain ⟨k, hk, hkval⟩ := h i val hmem
      have hlt := place_lt hmem
      obtain ⟨k', hk', hkk⟩ := hwraps i _ (List.getElem?_eq_getElem hlt)
      obtain rfl : k' = k := Option.some.inj (hk'.symm.trans hk)
      exact ⟨_, List.getElem?_eq_getElem hlt, hident.trans (hident.symm hkk) hkval⟩
    exact ⟨hfound, hfound.pool_eq hrespects ▸ hwraps⟩
  · rintro ⟨hfound, hwraps⟩ i val hmem
    rw [← hfound.pool_eq hrespects] at hwraps
    obtain ⟨k, hk, hkval⟩ := hfound i val hmem
    obtain ⟨k', hk', hkk⟩ := hwraps i k hk
    exact ⟨k', hk', hident.trans hkk hkval⟩

end Kept

end Interning
