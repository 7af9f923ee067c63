/-
`gcd`: Euclid's algorithm on 64-bit integers, or on bigints where the first argument is
one.
-/
import NewLispNeo.BigintInt64
import NewLispNeo.BigintDivision
import NewLispNeo.Arith
import Mathlib.Data.Nat.Digits.Lemmas

namespace NewLispNeo

/-- An argument of `gcd`: a `CELL_LONG` or a `CELL_BIGINT`. -/
inductive Integer where
  | long (n : Word)
  | bigint (b : Bigint)

namespace Integer

def toInt : Integer → Int
  | long n => n.toInt
  | bigint b => b.toInt

/-- A bigint has the digits that arithmetic makes. -/
def WellFormed : Integer → Prop
  | long _ => True
  | bigint b => b.Canonical

def getInteger64Ext : Integer → Outcome Error Word
  | long n => .value n
  | bigint b => b.bigintToInt64

def p_bigInt : Integer → Bigint
  | long n => Bigint.intToBigint n
  | bigint b => b

end Integer

namespace Gcd

open Bigint

/-- `while (n != 0)`. -/
def euclid : Nat → Word → Word → Outcome Error Word
  | 0, _, _ => .timeout
  | fuel + 1, m, n =>
      if n = 0 then .value m else intStep .modulo m n >>= fun r => euclid fuel n r

/-- The loop over the parameters, after a first argument that is no bigint. -/
def integerLoop (fuel : Nat) : Word → List Integer → Outcome Error Word
  | m, [] => .value m
  | m, a :: params =>
      a.getInteger64Ext >>= fun n =>
        euclid fuel m n >>= fun m => integerLoop fuel m params

/-- `gcdBig`, with the divisions it makes. -/
def gcdBig : Nat → Bigint → Bigint → Outcome Error (Bigint × List Division)
  | 0, _, _ => .timeout
  | fuel + 1, a, b =>
      if b.digits = [0] then .value (a, [])
      else
        divModBigint a b true >>= fun division =>
          gcdBig fuel division.call.y division.call.result >>= fun (cell, divisions) =>
            .value (cell, division :: divisions)

/-- From `NEXT_BIG_GCD` on. -/
def bigLoop (fuel : Nat) : Bigint → List Integer → Outcome Error (Bigint × List Division)
  -- the missing parameter evaluates to `nilCell`
  | _, [] => .error .missingArgument
  | x, [a] => gcdBig fuel x a.p_bigInt
  | x, a :: b :: params =>
      gcdBig fuel x a.p_bigInt >>= fun (cell, divisions) =>
        bigLoop fuel cell (b :: params) >>= fun (cell, more) =>
          .value (cell, divisions ++ more)

/-- `p_gcd`. -/
def p_gcd (fuel : Nat) : List Integer → Outcome Error (Integer × List Division)
  | [] => .error .missingArgument
  | .bigint x :: params =>
      bigLoop fuel x params >>= fun (cell, divisions) =>
        .value (.bigint ⟨false, cell.digits⟩, divisions)
  | .long m :: params =>
      integerLoop fuel m params >>= fun m =>
        .value (.long (if m.toInt < 0 then -m else m), [])

/-! ### Common divisors -/

/-- The divisors of `d` are the common divisors of `ns`. -/
def CommonDivisors (ns : List Int) (d : Int) : Prop :=
  ∀ c, c ∣ d ↔ ∀ n ∈ ns, c ∣ n

structure GreatestCommonDivisor (ns : List Int) (d : Int) : Prop where
  nonneg : 0 ≤ d
  divisors : CommonDivisors ns d

section Divisors

variable {ns ns' : List Int} {d d' m n : Int}

theorem commonDivisors_single (n : Int) : CommonDivisors [n] n := by
  simp [CommonDivisors]

theorem CommonDivisors.append (h : CommonDivisors ns m)
    (hd : ∀ c, c ∣ d ↔ c ∣ m ∧ c ∣ n) : CommonDivisors (ns ++ [n]) d := by
  intro c
  rw [hd, h c]
  simp [or_imp, forall_and]

theorem CommonDivisors.of_natAbs (h : CommonDivisors ns d) (hd : d'.natAbs = d.natAbs) :
    CommonDivisors ns d' := by
  intro c
  rw [← h c, ← Int.natAbs_dvd_natAbs, hd, Int.natAbs_dvd_natAbs]

theorem GreatestCommonDivisor.unique (h : GreatestCommonDivisor ns d)
    (h' : GreatestCommonDivisor ns' d') (hmem : ∀ n, n ∈ ns ↔ n ∈ ns') : d = d' := by
  have hdvd : ∀ c, c ∣ d ↔ c ∣ d' := by
    intro c
    rw [h.divisors c, h'.divisors c]
    simp only [hmem]
  exact Int.dvd_antisymm h.nonneg h'.nonneg ((hdvd d).mp dvd_rfl) ((hdvd d').mpr dvd_rfl)

end Divisors

/-- The last remainder of truncated division that is not zero, with its sign. -/
def signedGcd (m n : Int) : Int :=
  if n = 0 then m else signedGcd n (m.tmod n)
termination_by n.natAbs
decreasing_by
  rw [Int.natAbs_tmod]
  exact Nat.mod_lt _ (by omega)

theorem signedGcd_zero (m : Int) : signedGcd m 0 = m := by
  rw [signedGcd, if_pos rfl]

theorem signedGcd_of_ne {m n : Int} (hn : n ≠ 0) :
    signedGcd m n = signedGcd n (m.tmod n) := by
  rw [signedGcd, if_neg hn]

theorem dvd_signedGcd (c m n : Int) : c ∣ signedGcd m n ↔ c ∣ m ∧ c ∣ n := by
  fun_induction signedGcd m n with
  | case1 m => simp
  | case2 m n hne ih =>
      rw [ih, Int.tmod_def]
      constructor
      · rintro ⟨hn, hrest⟩
        exact ⟨(dvd_sub_left (hn.mul_right _)).mp hrest, hn⟩
      · rintro ⟨hm, hn⟩
        exact ⟨hn, (dvd_sub_left (hn.mul_right _)).mpr hm⟩

/-! ### 64-bit integers -/

/-- The loop comes to the remainder of `-2 ^ 63` by `-1`, at once or in the second
round. -/
def Traps (m n : Int) : Prop := m = -2 ^ 63 ∧ n = -1 ∨ m = -1 ∧ n = -2 ^ 63

/-- No parameter makes the loop trap. -/
def TrapFree : Int → List Int → Prop
  | _, [] => True
  | m, n :: ns => ¬ Traps m n ∧ TrapFree (signedGcd m n) ns

def InRange (n : Int) : Prop := -2 ^ 63 ≤ n ∧ n < 2 ^ 63

section Words

variable {m n r : Word} {fuel : Nat} {params : List Integer} {done : List Int}

theorem eq_of_toInt (h : m.toInt = n.toInt) : m = n := BitVec.eq_of_toInt_eq h

theorem modulo_eq (hn : n ≠ 0) (hsafe : ¬ Traps m.toInt n.toInt) :
    intStep .modulo m n = .value (m.srem n) := by
  have hno : ¬ (m = BitVec.intMin 64 ∧ n = -1) := by
    rintro ⟨rfl, rfl⟩
    exact hsafe (.inl ⟨by decide, by decide⟩)
  rw [intStep, if_neg hn, if_neg hno]

/-- One round leads to no trap. -/
theorem traps_srem (hsafe : ¬ Traps m.toInt n.toInt) :
    ¬ Traps n.toInt (m.srem n).toInt := by
  have hmlow := m.le_toInt
  have hmhigh := m.toInt_lt
  rw [BitVec.toInt_srem]
  rintro (⟨hmin, hrem⟩ | ⟨hone, hrem⟩)
  · rw [hmin] at hrem
    by_cases hm : m.toInt = -2 ^ 63
    · rw [hm, Int.tmod_self] at hrem
      omega
    · have habs : (m.toInt.tmod (-2 ^ 63)).natAbs = m.toInt.natAbs := by
        rw [Int.natAbs_tmod]
        exact Nat.mod_eq_of_lt (by omega)
      have hsign := Int.tmod_def m.toInt (-2 ^ 63)
      rw [hrem] at habs hsign
      exact hsafe (.inr ⟨by omega, hmin⟩)
  · rw [hone] at hrem
    simp at hrem

theorem euclid_spec (hsafe : ¬ Traps m.toInt n.toInt) :
    ∃ r : Word, r.toInt = signedGcd m.toInt n.toInt ∧
      ∀ fuel, n.toInt.natAbs < fuel → euclid fuel m n = .value r := by
  induction hk : n.toInt.natAbs using Nat.strong_induction_on generalizing m n with
  | h k ih =>
      by_cases hn : n = 0
      · subst hn
        refine ⟨m, (signedGcd_zero _).symm, fun fuel hfuel => ?_⟩
        cases fuel with
        | zero => omega
        | succ fuel => rw [euclid, if_pos rfl]
      · have hnInt : n.toInt ≠ 0 := fun hzero => hn (eq_of_toInt hzero)
        have hless : (m.srem n).toInt.natAbs < k := by
          rw [BitVec.toInt_srem, Int.natAbs_tmod, ← hk]
          exact Nat.mod_lt _ (by omega)
        obtain ⟨r, hr, hrun⟩ := ih _ hless (traps_srem hsafe) rfl
        refine ⟨r, ?_, fun fuel hfuel => ?_⟩
        · rw [hr, signedGcd_of_ne hnInt, BitVec.toInt_srem]
        · cases fuel with
          | zero => omega
          | succ fuel =>
              rw [euclid, if_neg hn, modulo_eq hn hsafe]
              exact hrun fuel (by omega)

theorem modulo_value (hn : n ≠ 0) (h : intStep .modulo m n = .value r) :
    r = m.srem n ∧ ¬ (m.toInt = -2 ^ 63 ∧ n.toInt = -1) := by
  rw [intStep, if_neg hn] at h
  by_cases htrap : m = BitVec.intMin 64 ∧ n = -1
  · rw [if_pos htrap] at h
    cases h
  · rw [if_neg htrap, Outcome.value.injEq] at h
    refine ⟨h.symm, fun hpair => htrap ⟨eq_of_toInt hpair.1, eq_of_toInt hpair.2⟩⟩

/-- What returns did not trap. -/
theorem euclid_value (h : euclid fuel m n = .value r) :
    ¬ Traps m.toInt n.toInt ∧ r.toInt = signedGcd m.toInt n.toInt := by
  induction fuel generalizing m n with
  | zero => cases h
  | succ fuel ih =>
      rw [euclid] at h
      by_cases hn : n = 0
      · subst hn
        rw [if_pos rfl, Outcome.value.injEq] at h
        refine ⟨?_, by rw [← h]; exact (signedGcd_zero _).symm⟩
        rintro (⟨-, hn⟩ | ⟨-, hn⟩) <;> exact absurd hn (by decide)
      · rw [if_neg hn] at h
        obtain ⟨r', hstep, h⟩ := Outcome.bind_eq_value_iff.mp h
        obtain ⟨rfl, hnow⟩ := modulo_value hn hstep
        obtain ⟨hlater, hr⟩ := ih h
        have hnInt : n.toInt ≠ 0 := fun hzero => hn (eq_of_toInt hzero)
        refine ⟨?_, by rw [hr, signedGcd_of_ne hnInt, BitVec.toInt_srem]⟩
        rintro (htrap | ⟨hm, hmin⟩)
        · exact hnow htrap
        · refine hlater (.inl ⟨hmin, ?_⟩)
          rw [BitVec.toInt_srem, hm, hmin]
          decide

theorem getInteger64Ext_iff {a : Integer} (ha : a.WellFormed) :
    a.getInteger64Ext = .value n ↔ InRange a.toInt ∧ n.toInt = a.toInt := by
  cases a with
  | long k =>
      have hrange : InRange k.toInt := ⟨k.le_toInt, k.toInt_lt⟩
      simp only [Integer.getInteger64Ext, Outcome.value.injEq, Integer.toInt]
      exact ⟨fun h => ⟨hrange, by rw [h]⟩, fun h => (eq_of_toInt h.2).symm⟩
  | bigint b =>
      obtain ⟨hfits, herror⟩ := bigintToInt64_spec ha
      simp only [Integer.getInteger64Ext, Integer.toInt]
      constructor
      · intro h
        by_cases hrange : InRange b.toInt
        · obtain ⟨k, hk, hkb⟩ := hfits hrange
          rw [hk, Outcome.value.injEq] at h
          exact ⟨hrange, by rw [← h, hkb]⟩
        · rw [herror hrange] at h
          cases h
      · rintro ⟨hrange, hn⟩
        obtain ⟨k, hk, hkb⟩ := hfits hrange
        rw [hk, eq_of_toInt (hkb.trans hn.symm)]

/-- What the loop returns has the common divisors of all that went into it. -/
theorem integerLoop_spec (hparams : ∀ a ∈ params, a.WellFormed)
    (hrange : ∀ a ∈ params, InRange a.toInt)
    (hsafe : TrapFree m.toInt (params.map Integer.toInt))
    (hdone : CommonDivisors done m.toInt) :
    ∃ r : Word, CommonDivisors (done ++ params.map Integer.toInt) r.toInt ∧
      ∃ fuel₀, ∀ fuel, fuel₀ ≤ fuel → integerLoop fuel m params = .value r := by
  induction params generalizing m done with
  | nil => exact ⟨m, by simpa using hdone, 0, fun _ _ => rfl⟩
  | cons a params ih =>
      have hrangeA := hrange a List.mem_cons_self
      have hwf := hparams a List.mem_cons_self
      obtain ⟨hpair, hrest⟩ := hsafe
      obtain ⟨n, hn⟩ : ∃ n : Word, n.toInt = a.toInt :=
        ⟨.ofInt 64 a.toInt, by
          rw [BitVec.toInt_ofInt]
          exact int64_eq hrangeA.1 hrangeA.2⟩
      have hget := (getInteger64Ext_iff hwf).mpr ⟨hrangeA, hn⟩
      rw [← hn] at hpair hrest
      obtain ⟨d, hd, heuclid⟩ := euclid_spec hpair
      rw [← hd] at hrest
      have hstep : CommonDivisors (done ++ [a.toInt]) d.toInt := by
        apply hdone.append
        intro c
        rw [hd, dvd_signedGcd, hn]
      obtain ⟨r, hr, fuel₀, hloop⟩ := ih (fun b hb => hparams b (List.mem_cons_of_mem _ hb))
        (fun b hb => hrange b (List.mem_cons_of_mem _ hb)) hrest hstep
      refine ⟨r, by simpa using hr, max fuel₀ (n.toInt.natAbs + 1), fun fuel hfuel => ?_⟩
      rw [integerLoop, hget, Outcome.value_bind, heuclid fuel (by omega),
        Outcome.value_bind, hloop fuel (by omega)]

/-- It returns nothing but that. -/
theorem integerLoop_value (hparams : ∀ a ∈ params, a.WellFormed)
    (h : integerLoop fuel m params = .value r) : (∀ a ∈ params, InRange a.toInt) ∧
      TrapFree m.toInt (params.map Integer.toInt) := by
  induction params generalizing m with
  | nil => exact ⟨fun _ hmem => absurd hmem List.not_mem_nil, trivial⟩
  | cons a params ih =>
      rw [integerLoop] at h
      obtain ⟨n, hget, h⟩ := Outcome.bind_eq_value_iff.mp h
      obtain ⟨d, heuclid, h⟩ := Outcome.bind_eq_value_iff.mp h
      obtain ⟨hrange, hn⟩ := (getInteger64Ext_iff (hparams a List.mem_cons_self)).mp hget
      obtain ⟨hrest, hsafe⟩ := ih (fun b hb => hparams b (List.mem_cons_of_mem _ hb)) h
      obtain ⟨hpair, hd⟩ := euclid_value heuclid
      rw [hd, hn] at hsafe
      rw [hn] at hpair
      exact ⟨List.forall_mem_cons.mpr ⟨hrange, hrest⟩, hpair, hsafe⟩

end Words

/-! ### Bigints -/

/-- How many digits a number has. -/
def digitCount (n : Nat) : Nat := (Nat.digits base n).length

/-- In each division of Euclid's algorithm the leading digits of the dividend, as many as
the divisor has, are a number below the divisor. -/
def EuclidFits (a b : Nat) : Prop :=
  if b = 0 then True
  else a / base ^ (digitCount a - digitCount b) < b ∧ EuclidFits b (a % b)
termination_by b
decreasing_by exact Nat.mod_lt _ (by omega)

/-- The same for the parameters, one after the other. -/
def FitsFrom : Nat → List Int → Prop
  | _, [] => True
  | a, n :: ns => EuclidFits a n.natAbs ∧ FitsFrom (a.gcd n.natAbs) ns

def InBounds (divisions : List Division) : Prop :=
  ∀ division ∈ divisions, division.InBounds division.call.x division.call.y

section Bigints

variable {a b x : Bigint} {params : List Integer} {done : List Int}

theorem digitCount_magnitude (hb : b.Canonical) (hne : b.digits ≠ [0]) :
    digitCount b.magnitude = b.digits.length := by
  have hdigits : Nat.digits base b.magnitude = b.digits.reverse := by
    rw [magnitude_eq]
    refine Nat.digits_ofDigits base one_lt_base _ hb.reverse_lt fun hempty => ?_
    have hleading := hb.leading.resolve_left hne
    rw [List.getLast_reverse]
    intro hzero
    exact hleading (by rw [List.head?_eq_some_head (by simpa using hempty), hzero])
  rw [digitCount, hdigits, List.length_reverse]

theorem leading_iff (ha : a.Canonical) (hb : b.Canonical) (hne : b.digits ≠ [0]) :
    a.magnitude / base ^ (a.digits.length - b.digits.length) < b.magnitude ↔
      a.magnitude / base ^ (digitCount a.magnitude - digitCount b.magnitude) <
        b.magnitude := by
  by_cases hzero : a.digits = [0]
  · have hmagnitude : a.magnitude = 0 := by
      rw [magnitude, hzero]
      rfl
    simp [hmagnitude]
  · rw [digitCount_magnitude ha hzero, digitCount_magnitude hb hne]

theorem gcdBig_spec (ha : a.Canonical) (hb : b.Canonical) :
    ∃ cell divisions, cell.Canonical ∧ cell.magnitude = a.magnitude.gcd b.magnitude ∧
      (InBounds divisions ↔ EuclidFits a.magnitude b.magnitude) ∧
      ∀ fuel, b.magnitude < fuel → gcdBig fuel a b = .value (cell, divisions) := by
  induction hk : b.magnitude using Nat.strong_induction_on generalizing a b with
  | h k ih =>
      by_cases hzero : b.digits = [0]
      · have hmagnitude : b.magnitude = 0 := by
          rw [magnitude, hzero]
          rfl
        rw [hmagnitude] at hk
        subst hk
        refine ⟨a, [], ha, (Nat.gcd_zero_right _).symm, ?_, fun fuel hfuel => ?_⟩
        · rw [EuclidFits, if_pos rfl]
          simp [InBounds]
        · cases fuel with
          | zero => omega
          | succ fuel => rw [gcdBig, if_pos hzero]
      · obtain ⟨quotient, division, -, hdivision, hinto⟩ :=
          divModBigint_dividesInto ha hb hzero
        obtain ⟨-, hx, hy⟩ := hinto.operands
        have hpos := divisor_pos hb hzero
        have hrest : division.call.result.magnitude = a.magnitude % b.magnitude := by
          have hrem : division.call.result.toInt = a.toInt.tmod b.toInt := by
            rw [Int.tmod_def, ← hinto.truncated, hinto.value]
            ring
          rw [← natAbs_toInt, hrem, Int.natAbs_tmod, natAbs_toInt, natAbs_toInt]
        have hless : division.call.result.magnitude < k := by
          rw [hrest, ← hk]
          exact Nat.mod_lt _ hpos
        obtain ⟨cell, divisions, hcell, hgcd, hfits, hrun⟩ :=
          ih _ hless hb hinto.canonical.2 rfl
        refine ⟨cell, division :: divisions, hcell, ?_, ?_, fun fuel hfuel => ?_⟩
        · rw [hgcd, hrest, hk, Nat.gcd_comm a.magnitude, Nat.gcd_rec k a.magnitude, Nat.gcd_comm]
        · rw [EuclidFits, if_neg (by omega), ← hk, ← leading_iff ha hb hzero,
            ← hinto.inBounds, ← hrest, ← hfits, InBounds, List.forall_mem_cons, hx, hy]
          rfl
        · cases fuel with
          | zero => omega
          | succ fuel =>
              rw [gcdBig, if_neg hzero, hdivision, Outcome.value_bind, hy,
                hrun fuel (by omega)]
              rfl

theorem dvd_of_gcd {c : Int} {cell : Bigint} {n : Int}
    (h : cell.magnitude = a.magnitude.gcd n.natAbs) :
    c ∣ cell.toInt ↔ c ∣ a.toInt ∧ c ∣ n := by
  rw [← Int.natAbs_dvd_natAbs, natAbs_toInt, h, Nat.dvd_gcd_iff, ← natAbs_toInt,
    Int.natAbs_dvd_natAbs, Int.natAbs_dvd_natAbs]

/-- A parameter as a bigint, when its conversion is right. -/
theorem p_bigInt_spec {a : Integer} (ha : a.WellFormed)
    (hconverts : ∀ n, a = .long n → Bigint.Converts n) :
    a.p_bigInt.Canonical ∧ a.p_bigInt.toInt = a.toInt := by
  cases a with
  | long n => exact intToBigint_exact (hconverts n rfl)
  | bigint b => exact ⟨ha, rfl⟩

theorem bigLoop_spec (hx : x.Canonical) (hne : params ≠ [])
    (hparams : ∀ a ∈ params, a.WellFormed)
    (hconverts : ∀ n, .long n ∈ params → Bigint.Converts n)
    (hdone : CommonDivisors done x.toInt) :
    ∃ cell divisions, CommonDivisors (done ++ params.map Integer.toInt) cell.toInt ∧
      (InBounds divisions ↔ FitsFrom x.magnitude (params.map Integer.toInt)) ∧
      ∃ fuel₀, ∀ fuel, fuel₀ ≤ fuel → bigLoop fuel x params = .value (cell, divisions) := by
  induction params generalizing x done with
  | nil => exact absurd rfl hne
  | cons a params ih =>
      obtain ⟨hy, hya⟩ := p_bigInt_spec (hparams a List.mem_cons_self)
        fun n hn => hconverts n (hn ▸ List.mem_cons_self)
      obtain ⟨cell, divisions, hcell, hgcd, hfits, hrun⟩ := gcdBig_spec hx hy
      rw [← natAbs_toInt a.p_bigInt, hya] at hgcd hfits hrun
      have hstep : CommonDivisors (done ++ [a.toInt]) cell.toInt :=
        hdone.append fun c => dvd_of_gcd hgcd
      cases params with
      | nil =>
          exact ⟨cell, divisions, hstep, by simp [FitsFrom, hfits], _, fun fuel hfuel =>
            hrun fuel hfuel⟩
      | cons b params =>
          obtain ⟨result, more, hresult, hmore, fuel₀, hloop⟩ := ih hcell (by simp)
            (fun c hc => hparams c (List.mem_cons_of_mem _ hc))
            (fun n hn => hconverts n (List.mem_cons_of_mem _ hn)) hstep
          refine ⟨result, divisions ++ more, by simpa using hresult, ?_,
            max fuel₀ (a.toInt.natAbs + 1), fun fuel hfuel => ?_⟩
          · rw [List.map_cons, FitsFrom, ← hfits, ← hgcd, ← hmore, InBounds,
              List.forall_mem_append]
            rfl
          · have hrest := hloop fuel (by omega)
            rw [bigLoop, hrun fuel (by omega)]
            simp only [Outcome.value_bind, hrest]

end Bigints

/-! ### All lists of arguments -/

/-- With enough fuel `gcd` returns `z`, after these divisions. -/
def Returns (args : List Integer) (z : Integer) (divisions : List Division) : Prop :=
  ∃ fuel₀, ∀ fuel, fuel₀ ≤ fuel → p_gcd fuel args = .value (z, divisions)

/-- `gcd` returns the greatest common divisor. -/
def Right (args : List Integer) : Prop :=
  ∃ z divisions, Returns args z divisions ∧
    GreatestCommonDivisor (args.map Integer.toInt) z.toInt

/-- All that the divisions write lies in their arrays. -/
def Stays (args : List Integer) : Prop :=
  ∃ z divisions, Returns args z divisions ∧ InBounds divisions

/-- After a 64-bit integer all numbers fit into 64 bits, no remainder traps, and the
result fits; after a bigint there is a parameter, and the 64-bit ones are converted. -/
def Safe : List Integer → Prop
  | [] => False
  | .long m :: params =>
      (∀ a ∈ params, InRange a.toInt) ∧ TrapFree m.toInt (params.map Integer.toInt) ∧
        ¬ GreatestCommonDivisor (m.toInt :: params.map Integer.toInt) (2 ^ 63)
  | .bigint _ :: params => params ≠ [] ∧ ∀ n, .long n ∈ params → Bigint.Converts n

/-- The quotients fit into their arrays. -/
def Fits : List Integer → Prop
  | .bigint x :: params => FitsFrom x.magnitude (params.map Integer.toInt)
  | _ => True

/-- A 64-bit integer that is not converted exactly follows a bigint. -/
def Unconverted : List Integer → Prop
  | .bigint _ :: params => ∃ n, .long n ∈ params ∧ ¬ Bigint.Converts n
  | _ => False

section Results

variable {args args' : List Integer} {z z' : Integer} {divisions divisions' : List Division}
  {m r : Word} {x : Bigint} {params : List Integer}

theorem Returns.unique (h : Returns args z divisions) (h' : Returns args z' divisions') :
    z = z' ∧ divisions = divisions' := by
  obtain ⟨fuel₀, hrun⟩ := h
  obtain ⟨fuel₁, hrun'⟩ := h'
  have heq := (hrun (max fuel₀ fuel₁) (by omega)).symm.trans (hrun' _ (by omega))
  simpa using heq

/-- The last step makes a number nonnegative that is not the least one. -/
theorem toInt_abs (hr : r.toInt ≠ -2 ^ 63) :
    (if r.toInt < 0 then -r else r).toInt = r.toInt.natAbs := by
  have hne : r ≠ BitVec.intMin 64 := by
    rintro rfl
    exact hr (by decide)
  split_ifs with hneg
  · rw [BitVec.toInt_neg_of_ne_intMin hne]
    omega
  · omega

theorem returns_long (hparams : ∀ a ∈ params, a.WellFormed)
    (hsafe : Safe (.long m :: params)) :
    ∃ z, Returns (.long m :: params) z [] ∧
      GreatestCommonDivisor (m.toInt :: params.map Integer.toInt) z.toInt := by
  obtain ⟨hrange, htrap, hfits⟩ := hsafe
  obtain ⟨r, hr, fuel₀, hloop⟩ :=
    integerLoop_spec hparams hrange htrap (commonDivisors_single m.toInt)
  rw [List.singleton_append] at hr
  have hmin : r.toInt ≠ -2 ^ 63 := fun hmin =>
    hfits ⟨by decide, hr.of_natAbs (by rw [hmin]; rfl)⟩
  have habs := toInt_abs hmin
  refine ⟨.long (if r.toInt < 0 then -r else r), ⟨fuel₀, fun fuel hfuel => ?_⟩, ?_, ?_⟩
  · rw [p_gcd, hloop fuel hfuel]
    rfl
  · rw [Integer.toInt, habs]
    omega
  · refine hr.of_natAbs ?_
    rw [Integer.toInt, habs]
    omega

theorem returns_bigint (hx : x.Canonical) (hparams : ∀ a ∈ params, a.WellFormed)
    (hsafe : Safe (.bigint x :: params)) :
    ∃ z divisions, Returns (.bigint x :: params) z divisions ∧
      GreatestCommonDivisor (x.toInt :: params.map Integer.toInt) z.toInt ∧
      (InBounds divisions ↔ Fits (.bigint x :: params)) := by
  obtain ⟨cell, divisions, hcell, hbounds, fuel₀, hloop⟩ :=
    bigLoop_spec hx hsafe.1 hparams hsafe.2 (commonDivisors_single x.toInt)
  have habs : (⟨false, cell.digits⟩ : Bigint).toInt = cell.magnitude := rfl
  refine ⟨.bigint ⟨false, cell.digits⟩, divisions, ⟨fuel₀, fun fuel hfuel => ?_⟩,
    ⟨?_, ?_⟩, hbounds⟩
  · rw [p_gcd, hloop fuel hfuel]
    rfl
  · rw [Integer.toInt, habs]
    omega
  · refine hcell.of_natAbs ?_
    rw [Integer.toInt, habs, natAbs_toInt]
    rfl

theorem returns_of_safe (hargs : ∀ a ∈ args, a.WellFormed) (hsafe : Safe args) :
    ∃ z divisions, Returns args z divisions ∧
      GreatestCommonDivisor (args.map Integer.toInt) z.toInt ∧
      (InBounds divisions ↔ Fits args) := by
  cases args with
  | nil => cases hsafe
  | cons a params =>
      have hparams := fun b hb => hargs b (List.mem_cons_of_mem a hb)
      cases a with
      | long m =>
          obtain ⟨z, hz, hgcd⟩ := returns_long hparams hsafe
          exact ⟨z, [], hz, hgcd, by simp [InBounds, Fits]⟩
      | bigint x => exact returns_bigint (hargs _ List.mem_cons_self) hparams hsafe

theorem safe_of_right (hargs : ∀ a ∈ args, a.WellFormed) (h : Right args) :
    Safe args ∨ Unconverted args := by
  obtain ⟨z, divisions, ⟨fuel₀, hrun⟩, hgcd⟩ := h
  have hvalue := hrun fuel₀ le_rfl
  cases args with
  | nil => cases hvalue
  | cons a params =>
      cases a with
      | long m =>
          rw [p_gcd] at hvalue
          obtain ⟨r, hloop, hz⟩ := Outcome.bind_eq_value_iff.mp hvalue
          obtain ⟨hrange, htrap⟩ := integerLoop_value
            (fun b hb => hargs b (List.mem_cons_of_mem _ hb)) hloop
          refine .inl ⟨hrange, htrap, fun htoo => ?_⟩
          rw [Outcome.value.injEq, Prod.mk.injEq] at hz
          have hbig := hgcd.unique htoo fun _ => Iff.rfl
          rw [← hz.1, Integer.toInt] at hbig
          exact absurd hbig (ne_of_lt (BitVec.toInt_lt))
      | bigint x =>
          have hne : params ≠ [] := by
            rintro rfl
            cases hvalue
          by_cases hconverts : ∀ n, .long n ∈ params → Bigint.Converts n
          · exact .inl ⟨hne, hconverts⟩
          · refine .inr ?_
            simpa only [Unconverted, not_forall, exists_prop] using hconverts

/-- `gcd` returns the greatest common divisor of the arguments that are safe, and its
divisions write inside their arrays just where the quotients fit.  Of the others it does
so at most where a bigint comes first and a conversion is wrong.  The value depends
neither on the order of the arguments nor on their types. -/
theorem p_gcd_right_iff (hargs : ∀ a ∈ args, a.WellFormed) :
    (Safe args → Right args ∧ (Stays args ↔ Fits args)) ∧
      (Right args → Safe args ∨ Unconverted args) ∧
      ∀ args', (∀ a ∈ args', a.WellFormed) → Safe args → Safe args' →
        (∀ n, n ∈ args.map Integer.toInt ↔ n ∈ args'.map Integer.toInt) →
        ∃ z divisions z' divisions', Returns args z divisions ∧
          Returns args' z' divisions' ∧ z.toInt = z'.toInt := by
  refine ⟨fun hsafe => ?_, safe_of_right hargs, fun args' hargs' hsafe hsafe' hmem => ?_⟩
  · obtain ⟨z, divisions, hz, hgcd, hbounds⟩ := returns_of_safe hargs hsafe
    refine ⟨⟨z, divisions, hz, hgcd⟩, ⟨?_, fun hfits => ⟨z, divisions, hz, hbounds.mpr hfits⟩⟩⟩
    rintro ⟨z', divisions', hz', hinside⟩
    rw [(hz'.unique hz).2] at hinside
    exact hbounds.mp hinside
  · obtain ⟨z, divisions, hz, hgcd, -⟩ := returns_of_safe hargs hsafe
    obtain ⟨z', divisions', hz', hgcd', -⟩ := returns_of_safe hargs' hsafe'
    exact ⟨z, divisions, z', divisions', hz, hz', hgcd.unique hgcd' hmem⟩

theorem p_gcd_right_mixed : Right [.bigint ⟨false, [12]⟩, .long 8] := by
  have hargs : ∀ a ∈ [Integer.bigint ⟨false, [12]⟩, .long 8], a.WellFormed := by
    intro a ha
    simp only [List.mem_cons, List.not_mem_nil, or_false] at ha
    rcases ha with rfl | rfl
    · exact ⟨by simp, by decide, .inr (by decide)⟩
    · trivial
  refine ((p_gcd_right_iff hargs).1 ⟨by simp, fun n hn => ?_⟩).1
  obtain rfl : n = 8 := by simpa using hn
  decide

/-- A bigint alone, the least integer, and the least integer with `-1`. -/
theorem not_right : ¬ Right [.bigint ⟨false, [12]⟩] ∧ ¬ Right [.long (BitVec.intMin 64)] ∧
    ¬ Right [.long (BitVec.intMin 64), .long (-1)] := by
  refine ⟨?_, ?_, ?_⟩
  · rintro ⟨z, divisions, ⟨fuel₀, hrun⟩, -⟩
    exact absurd (hrun fuel₀ le_rfl) (by simp [p_gcd, bigLoop])
  · rintro ⟨z, divisions, ⟨fuel₀, hrun⟩, hgcd⟩
    have hvalue := hrun fuel₀ le_rfl
    have hmin : p_gcd fuel₀ [.long (BitVec.intMin 64)] =
      .value (.long (BitVec.intMin 64), []) := rfl
    rw [hmin, Outcome.value.injEq, Prod.mk.injEq] at hvalue
    rw [← hvalue.1] at hgcd
    exact absurd hgcd.nonneg (by decide)
  · rintro ⟨z, divisions, ⟨fuel₀, hrun⟩, -⟩
    have hvalue := hrun (fuel₀ + 1) (by omega)
    have htrap : p_gcd (fuel₀ + 1) [.long (BitVec.intMin 64), .long (-1)] = .error .trap := rfl
    rw [htrap] at hvalue
    cases hvalue

end Results

end Gcd

end NewLispNeo
