/-
Refinement of outcomes: a computation that stops at more places than another
one, whose values are good.
-/
import NewLispNeo.Outcome

universe u v

namespace Outcome

variable {ε : Type u} {α β : Type v} {good : α → Prop} {good' : β → Prop}
  {x y : Outcome ε α}

/-- Every value of `x` is good, and the value of `y`. -/
def Refines (good : α → Prop) (x y : Outcome ε α) : Prop :=
  ∀ a, x = .value a → y = .value a ∧ good a

namespace Refines

theorem value {a : α} (h : good a) :
    Refines good (.value a : Outcome ε α) (.value a) := by
  rintro b ⟨⟩
  exact ⟨rfl, h⟩

theorem error (e : ε) (y : Outcome ε α) : Refines good (.error e) y := by
  rintro b ⟨⟩

theorem undefined (y : Outcome ε α) : Refines good .undefined y := by
  rintro b ⟨⟩

theorem timeout (y : Outcome ε α) : Refines good .timeout y := by
  rintro b ⟨⟩

theorem self (h : ∀ a, x = .value a → good a) : Refines good x x :=
  fun a ha => ⟨ha, h a ha⟩

theorem bind {f g : α → Outcome ε β} (h : Refines good x y)
    (hfg : ∀ a, good a → Refines good' (f a) (g a)) :
    Refines good' (x >>= f) (y >>= g) := by
  intro b hb
  obtain ⟨a, ha, hb⟩ := Outcome.bind_eq_value_iff.mp hb
  obtain ⟨hy, hgood⟩ := h a ha
  rw [hy]
  exact hfg a hgood b hb

/-- Both computations begin with the same one. -/
theorem after (z : Outcome ε α) {f g : α → Outcome ε β}
    (hfg : ∀ a, z = .value a → Refines good' (f a) (g a)) :
    Refines good' (z >>= f) (z >>= g) :=
  bind (self fun _ ha => ha) hfg

end Refines

end Outcome
