/-
The successive matches of a pattern in a text: the leftmost one, then the leftmost one
behind it, and so on.  What the pattern matches is only known position by position, so
that it may look at all of the text around a match.
-/
import Mathlib.Data.Nat.Find

universe u v

namespace Leftmost

variable {γ : Type u}

/-- A match with its bounds and what its groups hold. -/
structure Match (γ : Type u) where
  start : Nat
  stop : Nat
  groups : γ

/-- The match that is preferred at each position of a text of `size` elements. -/
structure Pattern (γ : Type u) where
  size : Nat
  matchAt : Nat → Option (Nat × γ)
  bounds : ∀ {p q : Nat} {g : γ}, matchAt p = some (q, g) → p ≤ q ∧ q ≤ size

/-- Where the search goes on behind a match: an empty one is passed by one element. -/
def Match.next (m : Match γ) : Nat := max m.stop (m.start + 1)

namespace Pattern

/-- The first match at one of `n` positions from `p` on. -/
def find (P : Pattern γ) : Nat → Nat → Option (Match γ)
  | 0, _ => none
  | n + 1, p =>
      match P.matchAt p with
      | some (q, g) => some ⟨p, q, g⟩
      | none => find P n (p + 1)

/-- The leftmost match from `offset` on. -/
def leftmost (P : Pattern γ) (offset : Nat) : Option (Match γ) :=
  P.find (P.size + 1 - offset) offset

/-- At most `n` successive matches. -/
def run (P : Pattern γ) : Nat → Nat → List (Match γ)
  | 0, _ => []
  | n + 1, offset =>
      match P.leftmost offset with
      | none => []
      | some m => m :: run P n m.next

/-- The successive matches from `offset` on. -/
def successive (P : Pattern γ) (offset : Nat) : List (Match γ) :=
  P.run (P.size + 1 - offset) offset

/-- `m` is the leftmost match from `offset` on. -/
structure IsLeftmost (P : Pattern γ) (offset : Nat) (m : Match γ) : Prop where
  le : offset ≤ m.start
  matchAt_eq : P.matchAt m.start = some (m.stop, m.groups)
  first : ∀ p, offset ≤ p → p < m.start → P.matchAt p = none

variable {P : Pattern γ} {offset n p : Nat} {m : Match γ}

theorem IsLeftmost.start_le_stop (h : P.IsLeftmost offset m) : m.start ≤ m.stop :=
  (P.bounds h.matchAt_eq).1

theorem IsLeftmost.stop_le (h : P.IsLeftmost offset m) : m.stop ≤ P.size :=
  (P.bounds h.matchAt_eq).2

theorem IsLeftmost.lt_next (h : P.IsLeftmost offset m) : offset < m.next := by
  have hle := h.le
  simp only [Match.next]
  omega

theorem find_succ (n p : Nat) : P.find (n + 1) p =
    match P.matchAt p with
    | some (q, g) => some ⟨p, q, g⟩
    | none => P.find n (p + 1) := rfl

theorem find_eq_some_iff : P.find n p = some m ↔ P.IsLeftmost p m ∧ m.start < p + n := by
  induction n generalizing p with
  | zero =>
      constructor
      · intro h
        cases h
      · rintro ⟨h, hlt⟩
        exact absurd h.le (by omega)
  | succ n ih =>
      rw [find_succ]
      cases hp : P.matchAt p with
      | none =>
          simp only [ih]
          constructor
          · rintro ⟨h, hlt⟩
            have hle := h.le
            refine ⟨⟨by omega, h.matchAt_eq, fun p' hp' hlt' => ?_⟩, by omega⟩
            rcases Nat.eq_or_lt_of_le hp' with rfl | hp'
            · exact hp
            · exact h.first p' hp' hlt'
          · rintro ⟨h, hlt⟩
            have hne : p ≠ m.start := by
              rintro rfl
              rw [h.matchAt_eq] at hp
              cases hp
            have hle := h.le
            exact ⟨⟨by omega, h.matchAt_eq, fun p' hp' => h.first p' (by omega)⟩, by omega⟩
      | some r =>
          obtain ⟨q, g⟩ := r
          simp only [Option.some.injEq]
          constructor
          · rintro rfl
            exact ⟨⟨Nat.le_refl p, hp, fun p' hp' hlt => absurd hp' (Nat.not_le.mpr hlt)⟩,
              by simp⟩
          · rintro ⟨h, -⟩
            have heq : p = m.start := by
              by_contra hne
              have hle := h.le
              rw [h.first p (Nat.le_refl p) (by omega)] at hp
              cases hp
            subst heq
            obtain ⟨rfl, rfl⟩ : q = m.stop ∧ g = m.groups := by
              rw [h.matchAt_eq] at hp
              cases hp
              exact ⟨rfl, rfl⟩
            rfl

theorem leftmost_eq_some_iff : P.leftmost offset = some m ↔ P.IsLeftmost offset m := by
  rw [leftmost, find_eq_some_iff]
  refine ⟨fun h => h.1, fun h => ⟨h, ?_⟩⟩
  have hle := h.start_le_stop
  have hstop := h.stop_le
  omega

theorem leftmost_eq_none_iff :
    P.leftmost offset = none ↔ ∀ p, offset ≤ p → P.matchAt p = none := by
  rw [← not_iff_not]
  constructor
  · intro h
    obtain ⟨m, hm⟩ := Option.ne_none_iff_exists'.mp h
    have hleft := leftmost_eq_some_iff.mp hm
    intro hnone
    have hat := hleft.matchAt_eq
    rw [hnone _ hleft.le] at hat
    cases hat
  · intro h hnone
    push Not at h
    classical
    obtain ⟨⟨q, g⟩, hq⟩ := Option.ne_none_iff_exists'.mp (Nat.find_spec h).2
    have hleft : P.IsLeftmost offset ⟨Nat.find h, q, g⟩ := by
      refine ⟨(Nat.find_spec h).1, hq, fun p hp hlt => ?_⟩
      by_contra hne
      exact Nat.find_min h hlt ⟨hp, hne⟩
    rw [leftmost_eq_some_iff.mpr hleft] at hnone
    cases hnone

/-- Behind the end there is nothing. -/
theorem leftmost_of_size_lt (h : P.size < offset) : P.leftmost offset = none := by
  have hzero : P.size + 1 - offset = 0 := by omega
  rw [leftmost, hzero]
  rfl

theorem run_succ (n offset : Nat) : P.run (n + 1) offset =
    match P.leftmost offset with
    | none => []
    | some m => m :: P.run n m.next := rfl

/-- More matches than the text has room for are never found. -/
theorem run_eq_run {n' : Nat} (h : P.size + 1 - offset ≤ n) (h' : P.size + 1 - offset ≤ n') :
    P.run n offset = P.run n' offset := by
  induction n generalizing offset n' with
  | zero =>
      cases n' with
      | zero => rfl
      | succ n' =>
          rw [run_succ, leftmost_of_size_lt (by omega)]
          rfl
  | succ n ih =>
      cases n' with
      | zero =>
          rw [run_succ, leftmost_of_size_lt (by omega)]
          rfl
      | succ n' =>
          rw [run_succ, run_succ]
          cases hm : P.leftmost offset with
          | none => rfl
          | some m =>
              have hlt := (leftmost_eq_some_iff.mp hm).lt_next
              exact congrArg (m :: ·) (ih (by omega) (by omega))

theorem successive_of_none (h : P.leftmost offset = none) : P.successive offset = [] := by
  rw [successive]
  cases P.size + 1 - offset with
  | zero => rfl
  | succ n => rw [run_succ, h]

theorem successive_of_some (h : P.leftmost offset = some m) :
    P.successive offset = m :: P.successive m.next := by
  have hleft := leftmost_eq_some_iff.mp h
  have hle := hleft.start_le_stop
  have hstop := hleft.stop_le
  have hstart := hleft.le
  obtain ⟨n, hn⟩ := Nat.exists_eq_succ_of_ne_zero (by omega : P.size + 1 - offset ≠ 0)
  have hlt := hleft.lt_next
  rw [successive, hn, run_succ, h, successive]
  exact congrArg (m :: ·) (run_eq_run (by omega) (Nat.le_refl _))

/-- What holds behind the last match and goes over from behind a match to in front of it
holds of all successive matches. -/
theorem successive_induction {motive : Nat → List (Match γ) → Prop}
    (none : ∀ offset, P.leftmost offset = none → motive offset [])
    (some : ∀ offset m, P.IsLeftmost offset m → motive m.next (P.successive m.next) →
      motive offset (m :: P.successive m.next)) (offset : Nat) :
    motive offset (P.successive offset) := by
  induction hk : P.size + 1 - offset using Nat.strong_induction_on generalizing offset with
  | h k ih =>
      cases hm : P.leftmost offset with
      | none =>
          rw [successive_of_none hm]
          exact none offset hm
      | some m =>
          have hleft := leftmost_eq_some_iff.mp hm
          have hlt := hleft.lt_next
          have hle := hleft.le
          have hstop := hleft.stop_le
          have hstart := hleft.start_le_stop
          rw [successive_of_some hm]
          exact some offset m hleft (ih _ (by omega) m.next rfl)

end Pattern

end Leftmost
