/-
Runs of a step function with fuel: what a run from one state reaches, and what
it ends in for all fuel that is large enough.
-/
import Mathlib.Logic.Relation
import NewLispNeo.Outcome

namespace StepRun

universe u v w

/-- What a step leads to: the next state, or the result of the run. -/
inductive Next (S : Type v) (R : Type w) where
  | goOn (s : S)
  | done (r : R)

variable {ε : Type u} {S R : Type v} (step : S → Outcome ε (Next S R))

/-- A run of at most `fuel` steps. -/
def run : Nat → S → Outcome ε R
  | 0, _ => .timeout
  | fuel + 1, s =>
      match step s with
      | .value (.goOn s) => run fuel s
      | .value (.done r) => .value r
      | .error e => .error e
      | .undefined => .undefined
      | .timeout => .timeout

/-- Some steps lead from `s` to `t`. -/
def Reaches (s t : S) : Prop := ∃ k, ∀ n, run step (n + k) s = run step n t

/-- The run from `s` ends in `o`, whatever the fuel once there is enough. -/
def EndsIn (s : S) (o : Outcome ε R) : Prop := ∃ k, ∀ n, run step (n + k) s = o

variable {step}

theorem run_succ (fuel : Nat) (s : S) : run step (fuel + 1) s =
    match step s with
    | .value (.goOn s) => run step fuel s
    | .value (.done r) => .value r
    | .error e => .error e
    | .undefined => .undefined
    | .timeout => .timeout := rfl

theorem Reaches.refl (s : S) : Reaches step s s := ⟨0, fun _ => rfl⟩

theorem Reaches.trans {s t u : S} (hst : Reaches step s t)
    (htu : Reaches step t u) : Reaches step s u := by
  obtain ⟨k, hk⟩ := hst
  obtain ⟨l, hl⟩ := htu
  refine ⟨l + k, fun n => ?_⟩
  rw [← Nat.add_assoc, hk, hl]

theorem Reaches.single {s t : S} (h : step s = .value (.goOn t)) :
    Reaches step s t := ⟨1, fun n => by rw [run_succ, h]⟩

theorem Reaches.endsIn {s t : S} {o : Outcome ε R} (hst : Reaches step s t)
    (ht : EndsIn step t o) : EndsIn step s o := by
  obtain ⟨k, hk⟩ := hst
  obtain ⟨l, hl⟩ := ht
  refine ⟨l + k, fun n => ?_⟩
  rw [← Nat.add_assoc, hk, hl]

theorem endsIn_done {s : S} {r : R} (h : step s = .value (.done r)) :
    EndsIn step s (.value r) := ⟨1, fun n => by rw [run_succ, h]⟩

theorem endsIn_error {s : S} {e : ε} (h : step s = .error e) :
    EndsIn step s (.error e) := ⟨1, fun n => by rw [run_succ, h]⟩

theorem endsIn_undefined {s : S} (h : step s = .undefined) :
    EndsIn step s .undefined := ⟨1, fun n => by rw [run_succ, h]⟩

theorem endsIn_timeout {s : S} (h : step s = .timeout) :
    EndsIn step s .timeout := ⟨1, fun n => by rw [run_succ, h]⟩

theorem EndsIn.unique {s : S} {o o' : Outcome ε R} (h : EndsIn step s o)
    (h' : EndsIn step s o') : o = o' := by
  obtain ⟨k, hk⟩ := h
  obtain ⟨l, hl⟩ := h'
  rw [← hk l, ← hl k, Nat.add_comm]

theorem run_add {fuel : Nat} {s : S} {o : Outcome ε R}
    (h : run step fuel s = o) (ho : o ≠ .timeout) (n : Nat) :
    run step (n + fuel) s = o := by
  induction fuel generalizing s with
  | zero => exact absurd h.symm ho
  | succ fuel ih =>
      rw [← Nat.add_assoc]
      rw [run_succ] at h ⊢
      cases hstep : step s with
      | value next =>
          rw [hstep] at h
          cases next with
          | goOn t => exact ih h
          | done r => exact h
      | error e => rwa [hstep] at h
      | undefined => rwa [hstep] at h
      | timeout => rwa [hstep] at h

theorem endsIn_of_run {fuel : Nat} {s : S} {o : Outcome ε R}
    (h : run step fuel s = o) (ho : o ≠ .timeout) : EndsIn step s o :=
  ⟨fuel, fun n => run_add h ho n⟩

/-- Two states have the same outcomes once every outcome that one run comes to
is that of the other too. -/
theorem endsIn_congr {s t : S}
    (hst : ∀ fuel o, run step fuel s = o → o ≠ .timeout → EndsIn step t o)
    (hts : ∀ fuel o, run step fuel t = o → o ≠ .timeout → EndsIn step s o)
    (o : Outcome ε R) : EndsIn step s o ↔ EndsIn step t o := by
  have hone : ∀ {s t : S},
      (∀ fuel o, run step fuel s = o → o ≠ .timeout → EndsIn step t o) →
      (∀ fuel o, run step fuel t = o → o ≠ .timeout → EndsIn step s o) →
      EndsIn step s o → EndsIn step t o := by
    intro s t hst hts hs
    by_cases ho : o = .timeout
    · subst ho
      refine ⟨0, fun n => ?_⟩
      by_contra hn
      exact hn ((hts n _ rfl hn).unique hs)
    · obtain ⟨k, hk⟩ := hs
      exact hst k o (by simpa using hk 0) ho
  exact ⟨hone hst hts, hone hts hst⟩

/-- `t` comes after some steps from `s`. -/
def GoesOn (step : S → Outcome ε (Next S R)) : S → S → Prop :=
  Relation.ReflTransGen fun s t => step s = .value (.goOn t)

/-- What a step that leads to `x` comes to in the end. -/
def Continues (step : S → Outcome ε (Next S R)) (x : Outcome ε (Next S R))
    (o : Outcome ε R) : Prop :=
  match x with
  | .value (.goOn s) => EndsIn step s o
  | .value (.done r) => o = .value r
  | .error e => o = .error e
  | .undefined => o = .undefined
  | .timeout => o = .timeout

theorem continues_of_run {fuel : Nat} {x : Outcome ε (Next S R)}
    {o : Outcome ε R}
    (h : (match x with
      | .value (.goOn s) => run step fuel s
      | .value (.done r) => .value r
      | .error e => .error e
      | .undefined => .undefined
      | .timeout => .timeout) = o) (ho : o ≠ .timeout) :
    Continues step x o := by
  cases x with
  | value next =>
      cases next with
      | goOn s => exact endsIn_of_run h ho
      | done r => exact h.symm
  | error e => exact h.symm
  | undefined => exact h.symm
  | timeout => exact h.symm

theorem endsIn_iff_continues {s : S} {o : Outcome ε R} :
    EndsIn step s o ↔ Continues step (step s) o := by
  constructor
  · rintro ⟨k, hk⟩
    have hk' : ∀ n, run step (n + k + 1) s = o := by
      intro n
      rw [Nat.add_right_comm]
      exact hk (n + 1)
    simp only [run_succ] at hk'
    cases hstep : step s with
    | value next =>
        cases next with
        | goOn t => exact ⟨k, fun n => by simpa [hstep] using hk' n⟩
        | done r => simpa [Continues, hstep] using (hk' 0).symm
    | error e => simpa [Continues, hstep] using (hk' 0).symm
    | undefined => simpa [Continues, hstep] using (hk' 0).symm
    | timeout => simpa [Continues, hstep] using (hk' 0).symm
  · intro h
    cases hstep : step s with
    | value next =>
        rw [hstep] at h
        cases next with
        | goOn t => exact (Reaches.single hstep).endsIn h
        | done r => exact h ▸ endsIn_done hstep
    | error e => exact (show o = .error e by simpa [hstep, Continues] using h) ▸
        endsIn_error hstep
    | undefined => exact (show o = .undefined by
        simpa [hstep, Continues] using h) ▸ endsIn_undefined hstep
    | timeout => exact (show o = .timeout by
        simpa [hstep, Continues] using h) ▸ endsIn_timeout hstep

end StepRun
