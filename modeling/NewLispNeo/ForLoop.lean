/-
Counting loops with a body that may fail, and the rule for their invariants.
-/
import NewLispNeo.Outcome

namespace Outcome

variable {ε : Type u} {σ : Type v}

/-- `for(i = first; i < bound; i += step)` over the state `σ`. -/
def forLoop (bound step : Nat) (body : Nat → σ → Outcome ε σ) : Nat → Nat → σ → Outcome ε σ
  | 0, _, _ => .timeout
  | fuel + 1, i, s =>
      if i < bound then body i s >>= forLoop bound step body fuel (i + step) else .value s

variable {bound step first T fuel : Nat} {s : σ}

theorem forLoop_succ (body : Nat → σ → Outcome ε σ) (fuel i : Nat) (s : σ) :
    forLoop bound step body (fuel + 1) i s =
      if i < bound then body i s >>= forLoop bound step body fuel (i + step) else .value s := rfl

/-- What holds before the first of `T` rounds and is kept by each holds at the end. -/
theorem forLoop_invariant (body : Nat → σ → Outcome ε σ) (Inv : Nat → σ → Prop)
    (hbound : ∀ c, first + step * c < bound ↔ c < T)
    (hbody : ∀ c s, c < T → Inv c s →
      ∃ s', body (first + step * c) s = .value s' ∧ Inv (c + 1) s')
    (hstart : Inv 0 s) (hfuel : T < fuel) :
    ∃ s', forLoop bound step body fuel first s = .value s' ∧ Inv T s' := by
  have hrun : ∀ n c s fuel, c + n = T → Inv c s → n < fuel →
      ∃ s', forLoop bound step body fuel (first + step * c) s = .value s' ∧ Inv T s' := by
    intro n
    induction n with
    | zero =>
        intro c s fuel hc hinv hlt
        obtain ⟨fuel, rfl⟩ := Nat.exists_eq_add_one_of_ne_zero (Nat.ne_of_gt hlt)
        refine ⟨s, ?_, hc ▸ hinv⟩
        rw [forLoop_succ, if_neg]
        rw [hbound]
        omega
    | succ n ih =>
        intro c s fuel hc hinv hlt
        have hne : fuel ≠ 0 := Nat.ne_of_gt (Nat.zero_lt_of_lt hlt)
        obtain ⟨fuel, rfl⟩ := Nat.exists_eq_add_one_of_ne_zero hne
        have hcT : c < T := by omega
        obtain ⟨s₁, hstep, hinv₁⟩ := hbody c s hcT hinv
        obtain ⟨s', hrest, hinv'⟩ := ih (c + 1) s₁ fuel (by omega) hinv₁ (by omega)
        refine ⟨s', ?_, hinv'⟩
        rw [forLoop_succ, if_pos ((hbound c).mpr hcT), hstep, value_bind, Nat.add_assoc]
        exact hrest
  have hzero := hrun T 0 s fuel (Nat.zero_add T) hstart hfuel
  rw [Nat.mul_zero, Nat.add_zero] at hzero
  exact hzero

end Outcome
