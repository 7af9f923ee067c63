/-
`factor`: trial division by 2 and the odd numbers, up to a divisor whose square is
above the cofactor.
-/
import NewLispNeo.Cell
import Mathlib.NumberTheory.LucasPrimality
import Mathlib.Tactic.ReduceModChar
import Mathlib.Tactic.NormNum.Prime
import Mathlib.Data.List.Sort

namespace NewLispNeo

/-- `for (k = 0; (n % d) == 0; k++) n /= d;` -/
def divideOut : Nat → Nat → Nat → Nat → Outcome Error (Nat × Nat)
  | 0, _, _, _ => .timeout
  | fuel + 1, d, k, n =>
      if n % d = 0 then divideOut fuel d (k + 1) (n / d) else .value (k, n)

/-- The loop over the odd divisors, with the factors found so far and the cofactor.
The product `d * d` is one of signed 64-bit numbers. -/
def factorLoop : Nat → Nat → List Nat → Nat → Outcome Error (List Nat × Nat)
  | 0, _, _, _ => .timeout
  | fuel + 1, d, factList, n =>
      if 2 ^ 63 ≤ d * d then .undefined
      else if d * d ≤ n then
        divideOut fuel d 0 n >>= fun (k, n) =>
          factorLoop fuel (d + 2) (factList ++ List.replicate k d) n
      else .value (factList, n)

def stuffInteger64 (n : Nat) : Cell := .long (BitVec.ofNat 64 n)

/-- `p_factor` of the number that its parameter evaluates to; from 2 on it is a natural
number. -/
def p_factor (fuel : Nat) (param : Word) : Outcome Error Cell :=
  if param.toInt < 2 then .value .nil
  else
    divideOut fuel 2 0 param.toNat >>= fun (k, n) =>
      factorLoop fuel 3 (List.replicate k 2) n >>= fun (factList, n) =>
        let factList := if 1 < n then factList ++ [n] else factList
        .value (.expression (factList.map stuffInteger64))

/-- A nondecreasing list of primes with the product `n`. -/
structure Factorisation (n : Nat) (factors : List Nat) : Prop where
  sorted : factors.Pairwise (· ≤ ·)
  prime : ∀ p ∈ factors, p.Prime
  prod_eq : factors.prod = n

/-- With enough fuel `factor` returns the prime factors, without an overflow on the
way. -/
def FactorsRight (n : Word) : Prop :=
  ∃ fuel₀, ∀ fuel, fuel₀ ≤ fuel → ∃ factors, Factorisation n.toNat factors ∧
    p_factor fuel n = .value (.expression (factors.map stuffInteger64))

/-- The last number with a square below `2 ^ 63`. -/
def lastDivisor : Nat := 3037000499

theorem lt_of_square {d : Nat} (h : d * d < 2 ^ 63) : d ≤ lastDivisor := by
  by_contra hlarge
  have hmul : (lastDivisor + 1) * (lastDivisor + 1) ≤ d * d :=
    Nat.mul_le_mul (by omega) (by omega)
  have hover : 2 ^ 63 ≤ (lastDivisor + 1) * (lastDivisor + 1) := by decide
  omega

theorem square_lt {d : Nat} (h : d ≤ lastDivisor) : d * d < 2 ^ 63 :=
  Nat.lt_of_le_of_lt (Nat.mul_le_mul h h) (by decide)

theorem lastDivisor_not_prime : ¬ lastDivisor.Prime := by
  have hsplit : lastDivisor = 13 * 233615423 := by decide
  rw [hsplit]
  exact Nat.not_prime_mul (by decide) (by decide)

/-! ### Trial division -/

/-- What has been found of the factors of `n₀` below `d`: the cofactor `n` has no smaller
ones. -/
structure FactoredBelow (n₀ d : Nat) (factors : List Nat) (n : Nat) : Prop where
  sorted : factors.Pairwise (· ≤ ·)
  prime : ∀ p ∈ factors, p.Prime
  below : ∀ p ∈ factors, p < d
  prod_eq : factors.prod * n = n₀
  rough : ∀ p, p.Prime → p ∣ n → d ≤ p
  pos : 0 < n

variable {n₀ n d k : Nat} {factors : List Nat}

theorem divideOut_eq (hd : 2 ≤ d) (hn : 0 < n) (k : Nat) : ∃ j n', n = d ^ j * n' ∧
    ¬ d ∣ n' ∧ ∀ fuel, n < fuel → divideOut fuel d k n = .value (k + j, n') := by
  induction n using Nat.strong_induction_on generalizing k with
  | h n ih =>
      by_cases hdvd : d ∣ n
      · obtain ⟨q, rfl⟩ := hdvd
        have hq : 0 < q := Nat.pos_of_mul_pos_left hn
        have hlt : q < d * q := by nlinarith
        have hdiv : d * q / d = q := Nat.mul_div_cancel_left q (by omega)
        obtain ⟨j, n', hsplit, hno, hrun⟩ := ih q hlt hq (k + 1)
        refine ⟨j + 1, n', ?_, hno, fun fuel hfuel => ?_⟩
        · rw [Nat.pow_succ, Nat.mul_assoc, Nat.mul_left_comm, ← hsplit]
        · cases fuel with
          | zero => omega
          | succ fuel =>
              rw [divideOut, if_pos (Nat.mul_mod_right d q), hdiv, hrun fuel (by omega),
                Nat.add_assoc, Nat.add_comm 1 j]
      · refine ⟨0, n, by simp, hdvd, fun fuel hfuel => ?_⟩
        cases fuel with
        | zero => omega
        | succ fuel =>
            have hmod : n % d ≠ 0 := fun hzero => hdvd (Nat.dvd_of_mod_eq_zero hzero)
            rw [divideOut, if_neg hmod]
            rfl

/-- The powers of `d` go over to the factors.  The next divisor is one on which no prime
lies before. -/
theorem FactoredBelow.step {d' n' : Nat} (h : FactoredBelow n₀ d factors n) {j : Nat}
    (hd : 2 ≤ d) (hsplit : n = d ^ j * n') (hno : ¬ d ∣ n') (hlt : d < d')
    (hnext : ∀ p, p.Prime → d < p → d' ≤ p) :
    FactoredBelow n₀ d' (factors ++ List.replicate j d) n' := by
  have hn' : n' ∣ n := ⟨d ^ j, by rw [hsplit, Nat.mul_comm]⟩
  refine ⟨?_, ?_, ?_, ?_, ?_, ?_⟩
  · rw [List.pairwise_append]
    refine ⟨h.sorted, List.pairwise_replicate.mpr (.inr (Nat.le_refl d)), ?_⟩
    intro p hp q hq
    rw [List.eq_of_mem_replicate hq]
    exact Nat.le_of_lt (h.below p hp)
  · intro p hp
    rcases List.mem_append.mp hp with hp | hp
    · exact h.prime p hp
    · -- a divisor with a smaller prime factor would not divide
      obtain ⟨hj, rfl⟩ := List.mem_replicate.mp hp
      have hdvd : p ∣ n := by
        rw [hsplit]
        exact Dvd.dvd.mul_right (dvd_pow_self p hj) n'
      have hmin : p.minFac.Prime := Nat.minFac_prime (by omega)
      have hge : p ≤ p.minFac := h.rough _ hmin ((Nat.minFac_dvd p).trans hdvd)
      rwa [Nat.le_antisymm hge (Nat.minFac_le (by omega))]
  · intro p hp
    rcases List.mem_append.mp hp with hp | hp
    · exact Nat.lt_trans (h.below p hp) hlt
    · rw [List.eq_of_mem_replicate hp]
      exact hlt
  · rw [List.prod_append, List.prod_replicate, Nat.mul_assoc, ← hsplit]
    exact h.prod_eq
  · intro p hp hdvd
    have hle : d ≤ p := h.rough p hp (hdvd.trans hn')
    rcases Nat.eq_or_lt_of_le hle with heq | hlt'
    · exact absurd (heq ▸ hdvd) hno
    · exact hnext p hp hlt'
  · exact Nat.pos_of_dvd_of_pos hn' h.pos

/-- A cofactor below the square of the divisor is 1 or a prime. -/
theorem FactoredBelow.finish (h : FactoredBelow n₀ d factors n) (hsquare : n < d * d) :
    Factorisation n₀ (if 1 < n then factors ++ [n] else factors) := by
  by_cases hone : 1 < n
  · rw [if_pos hone]
    have hprime : n.Prime := by
      by_contra hcomposite
      have hmin := h.rough _ (Nat.minFac_prime (by omega)) (Nat.minFac_dvd n)
      have hsq := Nat.minFac_sq_le_self h.pos hcomposite
      rw [Nat.pow_two] at hsq
      have hdd := Nat.mul_le_mul hmin hmin
      omega
    have hge := h.rough n hprime (Nat.dvd_refl n)
    refine ⟨?_, ?_, ?_⟩
    · rw [List.pairwise_append]
      refine ⟨h.sorted, List.pairwise_singleton _ _, ?_⟩
      intro p hp q hq
      rw [List.mem_singleton.mp hq]
      exact Nat.le_of_lt (Nat.lt_of_lt_of_le (h.below p hp) hge)
    · intro p hp
      rcases List.mem_append.mp hp with hp | hp
      · exact h.prime p hp
      · rwa [List.mem_singleton.mp hp]
    · rw [List.prod_append, List.prod_singleton]
      exact h.prod_eq
  · rw [if_neg hone]
    have hn : n = 1 := by
      have hpos := h.pos
      omega
    refine ⟨h.sorted, h.prime, ?_⟩
    have hprod := h.prod_eq
    rwa [hn, Nat.mul_one] at hprod

/-- The square of the last divisor that is tried does not reach a cofactor that is
prime. -/
def LargePrime (n : Nat) : Prop := n.Prime ∧ lastDivisor * lastDivisor < n

/-- The divisor stays below the last one while the cofactor reaches its square. -/
theorem FactoredBelow.next_le (h : FactoredBelow n₀ d factors n) (hn : n < 2 ^ 63)
    (hnot : ¬ LargePrime n) (hodd : d % 2 = 1) (hd : d * d ≤ n) :
    d + 2 ≤ lastDivisor := by
  have hle : d ≤ lastDivisor := lt_of_square (Nat.lt_of_le_of_lt hd hn)
  have hne : d ≠ lastDivisor := by
    rintro rfl
    -- a cofactor that large would be prime, or its least factor the last divisor
    have hcomposite : ¬ n.Prime := by
      intro hprime
      rcases Nat.eq_or_lt_of_le hd with heq | hlt
      · rw [← heq] at hprime
        exact Nat.not_prime_mul (by decide) (by decide) hprime
      · exact hnot ⟨hprime, hlt⟩
    have hone : n ≠ 1 := by
      rintro rfl
      exact absurd hd (by decide)
    have hmin := h.rough _ (Nat.minFac_prime hone) (Nat.minFac_dvd n)
    have hsq := Nat.minFac_sq_le_self h.pos hcomposite
    rw [Nat.pow_two] at hsq
    have hupper := lt_of_square (Nat.lt_of_le_of_lt hsq hn)
    have hsame := Nat.le_antisymm hupper hmin
    have hprime := Nat.minFac_prime hone
    rw [hsame] at hprime
    exact lastDivisor_not_prime hprime
  have hparity : lastDivisor % 2 = 1 := by decide
  omega

/-- The loop ends with all factors. -/
theorem factorLoop_eq (h : FactoredBelow n₀ d factors n) (hn : n < 2 ^ 63)
    (hnot : ¬ LargePrime n) (hodd : d % 2 = 1) (hthree : 3 ≤ d) (hlast : d ≤ lastDivisor) :
    ∃ fuel₀ factors' n', Factorisation n₀ (if 1 < n' then factors' ++ [n'] else factors') ∧
      ∀ fuel, fuel₀ ≤ fuel → factorLoop fuel d factors n = .value (factors', n') := by
  have hsquare : ¬ 2 ^ 63 ≤ d * d := Nat.not_le.mpr (square_lt hlast)
  generalize hm : lastDivisor - d = m
  induction m using Nat.strong_induction_on generalizing d factors n with
  | h m ih =>
      by_cases hd : d * d ≤ n
      · have htwo : 2 ≤ d := by omega
        obtain ⟨j, n', hsplit, hno, hrun⟩ := divideOut_eq htwo h.pos 0
        have hnext := h.next_le hn hnot hodd hd
        have hodds : ∀ p, p.Prime → d < p → d + 2 ≤ p := by
          intro p hp hlt
          have hp2 := hp.eq_two_or_odd
          omega
        have hbelow := h.step htwo hsplit hno (Nat.lt_add_of_pos_right Nat.two_pos) hodds
        have hle : n' ≤ n := Nat.le_of_dvd h.pos ⟨d ^ j, by rw [hsplit, Nat.mul_comm]⟩
        have hnot' : ¬ LargePrime n' := by
          rintro ⟨hprime, hlarge⟩
          cases j with
          | zero =>
              rw [Nat.pow_zero, Nat.one_mul] at hsplit
              exact hnot (hsplit ▸ ⟨hprime, hlarge⟩)
          | succ j =>
              have hpow : 3 ≤ d ^ (j + 1) :=
                hthree.trans (Nat.le_self_pow (Nat.succ_ne_zero j) d)
              have hmul := Nat.mul_le_mul_right n' hpow
              have hhalf : 2 ^ 63 ≤ 3 * (lastDivisor * lastDivisor) := by decide
              omega
        have hless : lastDivisor - (d + 2) < m := by omega
        obtain ⟨fuel₀, factors', n'', hright, hloop⟩ := ih (lastDivisor - (d + 2)) hless
          hbelow (by omega) hnot' (by omega) (by omega) hnext
          (Nat.not_le.mpr (square_lt hnext)) rfl
        refine ⟨max fuel₀ (n + 1) + 1, factors', n'', hright, fun fuel hfuel => ?_⟩
        cases fuel with
        | zero => omega
        | succ fuel =>
            rw [factorLoop, if_neg hsquare, if_pos hd, hrun fuel (by omega)]
            simp only [Outcome.value_bind, Nat.zero_add]
            exact hloop fuel (by omega)
      · refine ⟨1, factors, n, h.finish (by omega), fun fuel hfuel => ?_⟩
        cases fuel with
        | zero => omega
        | succ fuel => rw [factorLoop, if_neg hsquare, if_neg hd]

/-- A large prime has no divisor that the loop could find before the square of the
divisor overflows. -/
theorem factorLoop_ne_value (hn : LargePrime n) (hodd : d % 2 = 1) (hthree : 3 ≤ d)
    (hlast : d ≤ lastDivisor + 2) (fuel : Nat) (factors : List Nat) (r : List Nat × Nat) :
    factorLoop fuel d factors n ≠ .value r := by
  induction fuel generalizing d factors with
  | zero => simp [factorLoop]
  | succ fuel ih =>
      rw [factorLoop]
      by_cases hover : 2 ^ 63 ≤ d * d
      · rw [if_pos hover]
        simp
      · have hle : d ≤ lastDivisor := lt_of_square (Nat.not_le.mp hover)
        have hreach : d * d ≤ n := (Nat.mul_le_mul hle hle).trans (Nat.le_of_lt hn.2)
        have hmod : n % d ≠ 0 := by
          intro hzero
          rcases (Nat.dvd_prime hn.1).mp (Nat.dvd_of_mod_eq_zero hzero) with hone | hself
          · omega
          · rw [hself] at hreach
            have hbig := Nat.mul_le_mul_right n hn.1.two_le
            have hpos := hn.1.pos
            omega
        rw [if_neg hover, if_pos hreach]
        cases fuel with
        | zero => simp [divideOut]
        | succ fuel =>
            rw [divideOut, if_neg hmod]
            simp only [Outcome.value_bind, List.replicate_zero, List.append_nil]
            exact ih (by omega) (by omega) (by omega) factors

theorem toInt_of_two_le {n : Word} (h : 2 ≤ n.toInt) :
    n.toInt = (n.toNat : Int) ∧ n.toNat < 2 ^ 63 := by
  rw [BitVec.toInt_eq_toNat_cond] at h ⊢
  have hlt := n.isLt
  split at h <;> omega

/-- `factor` returns the prime factors of a number unless that is a prime above the
square of the last divisor. -/
theorem factorsRight_iff (n : Word) (hn : 2 ≤ n.toInt) :
    FactorsRight n ↔ ¬ (n.toNat.Prime ∧ 3037000499 ^ 2 < n.toNat) := by
  obtain ⟨hint, hlt⟩ := toInt_of_two_le hn
  have htwo : ¬ n.toInt < 2 := by omega
  have hlarge : (n.toNat.Prime ∧ 3037000499 ^ 2 < n.toNat) ↔ LargePrime n.toNat := by
    rw [Nat.pow_two]
    exact Iff.rfl
  rw [hlarge]
  obtain ⟨j, n', hsplit, hno, hrun⟩ := divideOut_eq (Nat.le_refl 2) (by omega : 0 < n.toNat) 0
  constructor
  · rintro ⟨fuel₀, hright⟩ hprime
    obtain ⟨factors, -, hvalue⟩ := hright (max fuel₀ (n.toNat + 1)) (Nat.le_max_left _ _)
    have hj : j = 0 ∧ n' = n.toNat := by
      cases j with
      | zero => exact ⟨rfl, by rw [hsplit, Nat.pow_zero, Nat.one_mul]⟩
      | succ j =>
          have hdvd : 2 ∣ n.toNat := by
            rw [hsplit, Nat.pow_succ, Nat.mul_right_comm]
            exact Nat.dvd_mul_left 2 _
          have hbig : lastDivisor * lastDivisor < n.toNat := hprime.2
          have hmin : 2 < lastDivisor * lastDivisor := by decide
          rcases (Nat.dvd_prime hprime.1).mp hdvd with hone | hself
          · omega
          · omega
    obtain ⟨rfl, rfl⟩ := hj
    rw [p_factor, if_neg htwo, hrun _ (by omega), Outcome.value_bind,
      Outcome.bind_eq_value_iff] at hvalue
    obtain ⟨r, hloop, -⟩ := hvalue
    exact factorLoop_ne_value hprime (by decide) (Nat.le_refl 3) (by decide) _ _ r hloop
  · intro hprime
    have hbelow : FactoredBelow n.toNat 2 [] n.toNat :=
      ⟨List.Pairwise.nil, by simp, by simp, by simp, fun p hp _ => hp.two_le, by omega⟩
    have hthree := hbelow.step (Nat.le_refl 2) hsplit hno (by decide : 2 < 3)
      (fun p _ hlt => hlt)
    have hle : n' ≤ n.toNat := Nat.le_of_dvd (by omega) ⟨2 ^ j, by rw [hsplit, Nat.mul_comm]⟩
    have hnot : ¬ LargePrime n' := by
      rintro ⟨hp, hbig⟩
      cases j with
      | zero =>
          rw [Nat.pow_zero, Nat.one_mul] at hsplit
          exact hprime (hsplit ▸ ⟨hp, hbig⟩)
      | succ j =>
          have hpow : 2 ≤ 2 ^ (j + 1) := Nat.le_self_pow (Nat.succ_ne_zero j) 2
          have hmul := Nat.mul_le_mul_right n' hpow
          have hhalf : 2 ^ 63 ≤ 2 * (lastDivisor * lastDivisor) := by decide
          omega
    obtain ⟨fuel₀, factors', n'', hright, hloop⟩ := factorLoop_eq hthree (by omega) hnot
      (by decide) (Nat.le_refl 3) (by decide)
    refine ⟨max fuel₀ (n.toNat + 1), fun fuel hfuel =>
      ⟨if 1 < n'' then factors' ++ [n''] else factors', hright, ?_⟩⟩
    rw [p_factor, if_neg htwo, hrun fuel (by omega), Outcome.value_bind]
    have hstart := hloop fuel (by omega)
    simp only [List.nil_append] at hstart
    simp only [Nat.zero_add, hstart, Outcome.value_bind]

theorem factorsRight_ninety : FactorsRight 90 ↔
    ¬ (Nat.Prime (90 : Word).toNat ∧ 3037000499 ^ 2 < (90 : Word).toNat) :=
  factorsRight_iff 90 (by decide)

/-- A prime just below `2 ^ 63`, by the powers of 2 to the divisors of its
predecessor. -/
theorem prime_below_limit : Nat.Prime 9223372036854775139 := by
  have hfactors : (9223372036854775138 : Nat) =
      2 * 23 * 53 * 331 * 2053 * 3643 * 1528199 := by norm_num
  refine lucas_primality _ 2 ?_ ?_
  · change (2 : ZMod 9223372036854775139) ^ 9223372036854775138 = 1
    reduce_mod_char
  · intro q hq hdvd
    change q ∣ 9223372036854775138 at hdvd
    have hsame : ∀ r : Nat, r.Prime → q ∣ r → q = r := fun r hr hqr =>
      (Nat.prime_dvd_prime_iff_eq hq hr).mp hqr
    have hcases : q = 2 ∨ q = 23 ∨ q = 53 ∨ q = 331 ∨ q = 2053 ∨ q = 3643 ∨
        q = 1528199 := by
      rw [hfactors] at hdvd
      simp only [hq.dvd_mul] at hdvd
      rcases hdvd with (((((h | h) | h) | h) | h) | h) | h
      · exact .inl (hsame 2 (by norm_num) h)
      · exact .inr (.inl (hsame 23 (by norm_num) h))
      · exact .inr (.inr (.inl (hsame 53 (by norm_num) h)))
      · exact .inr (.inr (.inr (.inl (hsame 331 (by norm_num) h))))
      · exact .inr (.inr (.inr (.inr (.inl (hsame 2053 (by norm_num) h)))))
      · exact .inr (.inr (.inr (.inr (.inr (.inl (hsame 3643 (by norm_num) h))))))
      · exact .inr (.inr (.inr (.inr (.inr (.inr (hsame 1528199 (by norm_num) h))))))
    rcases hcases with rfl | rfl | rfl | rfl | rfl | rfl | rfl
    all_goals
      norm_num only
      reduce_mod_char
      decide +kernel

theorem not_factorsRight : ¬ FactorsRight 9223372036854775139 := by
  rintro ⟨fuel₀, hright⟩
  obtain ⟨factors, -, hvalue⟩ := hright (fuel₀ + 1) (Nat.le_succ fuel₀)
  have hlarge : LargePrime 9223372036854775139 := ⟨prime_below_limit, by decide⟩
  have hstart : p_factor (fuel₀ + 1) 9223372036854775139 =
      (factorLoop (fuel₀ + 1) 3 [] 9223372036854775139 >>= fun (factList, n) =>
        let factList := if 1 < n then factList ++ [n] else factList
        .value (.expression (factList.map stuffInteger64))) := rfl
  rw [hstart, Outcome.bind_eq_value_iff] at hvalue
  obtain ⟨r, hloop, -⟩ := hvalue
  exact factorLoop_ne_value hlarge (by decide) (Nat.le_refl 3) (by decide) _ _ r hloop

end NewLispNeo
