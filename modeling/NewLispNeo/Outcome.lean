/-
Outcomes of a fuelled evaluation: a value, a raised error, a step the language
leaves undefined, or no answer within the fuel.
-/
import Mathlib.Order.Basic

universe u v

/-- The outcome of a computation that may raise an error of type `ε`. -/
inductive Outcome (ε : Type u) (α : Type v) where
  | value (a : α)
  | error (e : ε)
  | undefined
  | timeout
deriving DecidableEq

namespace Outcome

variable {ε : Type u} {α β γ : Type v}

@[inline] def bind (x : Outcome ε α) (f : α → Outcome ε β) : Outcome ε β :=
  match x with
  | value a => f a
  | error e => error e
  | undefined => undefined
  | timeout => timeout

instance : Monad (Outcome ε) where
  pure := value
  bind := Outcome.bind

@[simp] theorem pure_eq (a : α) : (pure a : Outcome ε α) = value a := rfl

@[simp] theorem value_bind (a : α) (f : α → Outcome ε β) :
    (value a >>= f) = f a := rfl

@[simp] theorem error_bind (e : ε) (f : α → Outcome ε β) :
    (error e >>= f) = error e := rfl

@[simp] theorem undefined_bind (f : α → Outcome ε β) :
    ((undefined : Outcome ε α) >>= f) = undefined := rfl

@[simp] theorem timeout_bind (f : α → Outcome ε β) :
    ((timeout : Outcome ε α) >>= f) = timeout := rfl

@[simp] theorem bind_assoc (x : Outcome ε α) (f : α → Outcome ε β)
    (g : β → Outcome ε γ) :
    (x >>= f >>= g) = (x >>= fun a => f a >>= g) := by
  cases x <;> rfl

theorem bind_eq_value_iff {x : Outcome ε α} {f : α → Outcome ε β} {b : β} :
    (x >>= f) = value b ↔ ∃ a, x = value a ∧ f a = value b := by
  cases x <;> simp

theorem bind_eq_error_iff {x : Outcome ε α} {f : α → Outcome ε β} {e : ε} :
    (x >>= f) = error e ↔
      x = error e ∨ ∃ a, x = value a ∧ f a = error e := by
  cases x <;> simp

theorem bind_eq_undefined_iff {x : Outcome ε α} {f : α → Outcome ε β} :
    (x >>= f) = undefined ↔ x = undefined ∨ ∃ a, x = value a ∧ f a = undefined := by
  cases x <;> simp

theorem bind_congr {x : Outcome ε α} {f g : α → Outcome ε β}
    (h : ∀ a, x = value a → f a = g a) : x >>= f = x >>= g := by
  cases x with
  | value a => exact h a rfl
  | _ => rfl

end Outcome
