/-
Computations over a state that outlives a raised error: a value or an error with
the state at that point, a step that is left undefined, or no answer.
-/
import Mathlib.Order.Basic

/-- How a computation ends. -/
inductive Ending (ε σ α : Type) where
  | value (a : α) (s : σ)
  | error (e : ε) (s : σ)
  | undefined
  | timeout

/-- A computation from a state. -/
def Effect (ε σ α : Type) := σ → Ending ε σ α

/-- The state at the end has `P`, after a value as after an error. -/
def Ending.All {ε σ α : Type} (P : σ → Prop) : Ending ε σ α → Prop
  | .value _ s => P s
  | .error _ s => P s
  | _ => True

namespace Effect

variable {ε σ α β γ : Type}

@[inline] def bind (x : Effect ε σ α) (f : α → Effect ε σ β) : Effect ε σ β :=
  fun s =>
    match x s with
    | .value a s => f a s
    | .error e s => .error e s
    | .undefined => .undefined
    | .timeout => .timeout

instance : Monad (Effect ε σ) where
  pure a := fun s => .value a s
  bind := Effect.bind

/-- The computation that raises the error `e`. -/
def raise (e : ε) : Effect ε σ α := fun s => .error e s

variable {x : Effect ε σ α} {f : α → Effect ε σ β} {s s' : σ} {a : α} {b : β} {e : ε}

@[simp] theorem pure_apply : (pure a : Effect ε σ α) s = .value a s := rfl

theorem bind_apply (x : Effect ε σ α) (f : α → Effect ε σ β) (s : σ) : (x >>= f) s =
    match x s with
    | .value a s => f a s
    | .error e s => .error e s
    | .undefined => .undefined
    | .timeout => .timeout := rfl

theorem bind_of_value (h : x s = .value a s') : (x >>= f) s = f a s' := by
  rw [bind_apply, h]

theorem bind_of_error (h : x s = .error e s') : (x >>= f) s = .error e s' := by
  rw [bind_apply, h]

theorem bind_of_undefined (h : x s = .undefined) : (x >>= f) s = .undefined := by
  rw [bind_apply, h]

theorem bind_of_timeout (h : x s = .timeout) : (x >>= f) s = .timeout := by
  rw [bind_apply, h]

theorem bind_eq_value_iff : (x >>= f) s = .value b s' ↔
    ∃ a s₁, x s = .value a s₁ ∧ f a s₁ = .value b s' := by
  rw [bind_apply]
  cases x s with
  | value a s₁ => simp [and_assoc]
  | error e s₁ => simp
  | undefined => simp
  | timeout => simp

theorem bind_assoc (x : Effect ε σ α) (f : α → Effect ε σ β) (g : β → Effect ε σ γ) :
    x >>= f >>= g = x >>= fun a => f a >>= g := by
  funext s
  simp only [bind_apply]
  cases x s <;> rfl

@[simp] theorem pure_bind (a : α) (f : α → Effect ε σ β) : pure a >>= f = f a := rfl

@[simp] theorem bind_pure (x : Effect ε σ α) : x >>= pure = x := by
  funext s
  rw [bind_apply]
  cases x s <;> rfl

theorem bind_congr_left {x y : Effect ε σ α} (h : x s = y s) (f : α → Effect ε σ β) :
    (x >>= f) s = (y >>= f) s := by
  rw [bind_apply, bind_apply, h]

/-- Only the values that `x` returns count in what follows. -/
theorem bind_congr {f g : α → Effect ε σ β}
    (h : ∀ a s', x s = .value a s' → f a s' = g a s') : (x >>= f) s = (x >>= g) s := by
  rw [bind_apply, bind_apply]
  cases hx : x s with
  | value a s' => exact h a s' hx
  | error e s' => rfl
  | undefined => rfl
  | timeout => rfl

/-- From a state with `P` the computation ends in one. -/
def Keeps (P : σ → Prop) (x : Effect ε σ α) : Prop := ∀ s, P s → (x s).All P

theorem keeps_pure (P : σ → Prop) (a : α) : Keeps P (pure a : Effect ε σ α) :=
  fun _ hs => hs

theorem Keeps.bind {P : σ → Prop} {f : α → Effect ε σ β} (hx : Keeps P x)
    (hf : ∀ a, Keeps P (f a)) : Keeps P (x >>= f) := by
  intro s hs
  have hend := hx s hs
  rw [bind_apply]
  cases hxs : x s with
  | value a s' =>
      rw [hxs] at hend
      exact hf a s' hend
  | error e s' =>
      rw [hxs] at hend
      exact hend
  | undefined => trivial
  | timeout => trivial

/-- From a state with `P` the computation returns a value and a state with `P`. -/
def Returns (P : σ → Prop) (x : Effect ε σ α) : Prop :=
  ∀ s, P s → ∃ a s', x s = .value a s' ∧ P s'

theorem returns_pure (P : σ → Prop) (a : α) : Returns P (pure a : Effect ε σ α) :=
  fun s hs => ⟨a, s, rfl, hs⟩

theorem Returns.bind {P : σ → Prop} {f : α → Effect ε σ β} (hx : Returns P x)
    (hf : ∀ a, (∃ s s', x s = .value a s') → Returns P (f a)) :
    Returns P (x >>= f) := by
  intro s hs
  obtain ⟨a, s₁, hxs, hs₁⟩ := hx s hs
  obtain ⟨b, s₂, hfs, hs₂⟩ := hf a ⟨s, s₁, hxs⟩ s₁ hs₁
  refine ⟨b, s₂, ?_, hs₂⟩
  rw [bind_of_value hxs, hfs]

/-! ### States of two parts -/

section Parts

variable {τ : Type}

/-- A computation on the second part of a state. -/
def second (x : Effect ε τ α) : Effect ε (σ × τ) α := fun (s, t) =>
  match x t with
  | .value a t => .value a (s, t)
  | .error e t => .error e (s, t)
  | .undefined => .undefined
  | .timeout => .timeout

theorem second_apply (x : Effect ε τ α) (s : σ) (t : τ) : second x (s, t) =
    match x t with
    | .value a t => .value a (s, t)
    | .error e t => .error e (s, t)
    | .undefined => .undefined
    | .timeout => .timeout := rfl

theorem second_eq_value_iff {y : Effect ε τ α} {s : σ} {t : τ} {p : σ × τ} :
    second y (s, t) = .value a p ↔ ∃ t', y t = .value a t' ∧ p = (s, t') := by
  rw [second_apply]
  cases y t with
  | value b t' =>
      constructor
      · intro h
        cases h
        exact ⟨t', rfl, rfl⟩
      · rintro ⟨t'', h, rfl⟩
        cases h
        rfl
  | error e t' => simp
  | undefined => simp
  | timeout => simp

/-- With `s` as the first part of the state, `x` does what `y` does on the second
part, as long as that part has `P`. -/
def ActsAs (P : τ → Prop) (s : σ) (x : Effect ε (σ × τ) α) (y : Effect ε τ α) : Prop :=
  ∀ t, P t → x (s, t) = second y (s, t) ∧ (y t).All P

variable {P : τ → Prop} {x : Effect ε (σ × τ) α} {y : Effect ε τ α} {s : σ}

theorem actsAs_pure (P : τ → Prop) (s : σ) (a : α) :
    ActsAs P s (pure a : Effect ε (σ × τ) α) (pure a) := fun _ ht => ⟨rfl, ht⟩

theorem ActsAs.bind {f : α → Effect ε (σ × τ) β} {g : α → Effect ε τ β}
    (hx : ActsAs P s x y)
    (hf : ∀ a, (∃ t t', y t = .value a t') → ActsAs P s (f a) (g a)) :
    ActsAs P s (x >>= f) (y >>= g) := by
  intro t ht
  obtain ⟨heq, hend⟩ := hx t ht
  rw [bind_apply, heq]
  simp only [second_apply, bind_apply]
  cases hy : y t with
  | value a t' =>
      rw [hy] at hend
      exact hf a ⟨t, t', hy⟩ t' hend
  | error e t' =>
      rw [hy] at hend
      exact ⟨rfl, hend⟩
  | undefined => exact ⟨rfl, trivial⟩
  | timeout => exact ⟨rfl, trivial⟩

end Parts

end Effect
