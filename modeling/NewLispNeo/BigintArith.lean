/-
The arithmetic of bigints: `cmpAbsBigint`, `addBigint`, `subBigint` and
`mulBigint` on digit arrays of a sign and big digits, the highest first.  The
loops run from the last digit to the first, so they are written on the digits in
that order.
-/
import NewLispNeo.Digits
import Mathlib.Data.Nat.Digits.Defs

namespace NewLispNeo

namespace Bigint

/-- The result of a call and its operands when it has returned. -/
structure Call where
  result : Bigint
  x : Bigint
  y : Bigint
deriving DecidableEq

/-- `digit % BIGINT_BASE` and `digit / BIGINT_BASE`. -/
def digitOf (digit : Int) : Nat := (digit.tmod base).toNat
def carryOf (digit : Int) : Nat := (digit.tdiv base).toNat

/-- The two loops of `addBigint`, and the last carry. -/
def addDigits (carry : Nat) : List Nat → List Nat → List Nat
  | [], _ => [carry]
  | x :: xs, y :: ys =>
      let digit := int32 (int32 (x + y) + carry)
      digitOf digit :: addDigits (carryOf digit) xs ys
  | x :: xs, [] =>
      let digit := int32 (x + carry)
      digitOf digit :: addDigits (carryOf digit) xs []

/-- `addBigint` on operands of one sign, the first not the shorter one. -/
def addSame (x y : Bigint) : Bigint :=
  let sm := (addDigits 0 x.digits.reverse y.digits.reverse).reverse
  ⟨x.negative, if sm.head? = some 0 then sm.tail else sm⟩

/-- The loop of `subBigint`. -/
def subDigits (carry : Nat) : List Nat → List Nat → List Nat
  | [], _ => []
  | x :: xs, ys =>
      let digit := int64 (int64 ((x : Int) - (ys.head?.getD 0 : Nat)) - carry)
      if digit < 0 then
        digitOf (int64 (digit + base)) :: subDigits 1 xs ys.tail
      else digitOf digit :: subDigits 0 xs ys.tail

/-- Remove leading zeros. -/
def trim : List Nat → List Nat
  | 0 :: d :: ds => trim (d :: ds)
  | ds => ds

/-- `subBigint` on operands of one sign. -/
def subSame (x y : Bigint) : Bigint :=
  if 1 ≤ cmpAbsBigint x y then
    ⟨x.negative, trim (subDigits 0 x.digits.reverse y.digits.reverse).reverse⟩
  else
    ⟨!x.negative, trim (subDigits 0 y.digits.reverse x.digits.reverse).reverse⟩

/-- `addBigint` after the exchange.  With different signs the second operand gets
the sign of the first during the subtraction. -/
def addOrdered (x y : Bigint) : Call :=
  if x.negative ≠ y.negative then
    let sign := x.negative
    let y := { y with negative := sign }
    let sm := subSame x y
    ⟨sm, { x with negative := sign }, { y with negative := !sign }⟩
  else ⟨addSame x y, x, y⟩

/-- `addBigint`. -/
def addBigint (x y : Bigint) : Call :=
  if x.digits.length < y.digits.length then
    let call := addOrdered y x
    ⟨call.result, call.y, call.x⟩
  else addOrdered x y

/-- `subBigint`. -/
def subBigint (x y : Bigint) : Call :=
  if x.negative ≠ y.negative then
    let sign := x.negative
    let y := { y with negative := sign }
    let sm := (addBigint x y).result
    ⟨sm, { x with negative := sign }, { y with negative := !sign }⟩
  else ⟨subSame x y, x, y⟩

/-- The inner loop of `mulBigint`: a digit `y` of the multiplier times the digits
of `x` on top of the product, and the last carry. -/
def mulDigits (y carry : Nat) : List Nat → List Nat → List Nat
  | _, [] => []
  | [], p :: ps => digitOf (int64 (p + carry)) :: ps
  | x :: xs, p :: ps =>
      let digit := int64 (int64 (p + int64 (y * x)) + carry)
      digitOf digit :: mulDigits y (int32 (carryOf digit)).toNat xs ps

/-- Its outer loop.  The lowest digit is done after each round. -/
def mulRows (xs : List Nat) : List Nat → List Nat → List Nat
  | [], ps => ps
  | y :: ys, ps =>
      match mulDigits y 0 xs ps with
      | [] => []
      | p :: ps => p :: mulRows xs ys ps

/-- `mulBigint`. -/
def mulBigint (x y : Bigint) : Call :=
  let p := mulRows x.digits.reverse y.digits.reverse
    (List.replicate (x.digits.length + y.digits.length) 0)
  ⟨⟨x.negative != y.negative, trim p.reverse⟩, x, y⟩

section Digits

@[simp] theorem digitOf_nat (n : Nat) : digitOf n = n % base := rfl

@[simp] theorem carryOf_nat (n : Nat) : carryOf n = n / base := rfl

theorem magnitude_eq (b : Bigint) : b.magnitude = Nat.ofDigits base b.digits.reverse := by
  have hfold : ∀ (ds : List Nat) (k : Nat), ds.foldl (fun n d => n * base + d) k =
      k * base ^ ds.length + Nat.ofDigits base ds.reverse := by
    intro ds
    induction ds with
    | nil => intro k; simp
    | cons d ds ih =>
        intro k
        rw [List.foldl_cons, ih, List.reverse_cons, Nat.ofDigits_append,
          Nat.ofDigits_singleton, List.length_reverse, List.length_cons, Nat.pow_succ]
        ring
  have hzero := hfold b.digits 0
  rwa [Nat.zero_mul, Nat.zero_add] at hzero

theorem one_lt_base : 1 < base := by decide

variable {ds : List Nat}

theorem ofDigits_lt (h : ∀ d ∈ ds, d < base) :
    Nat.ofDigits base ds < base ^ ds.length :=
  Nat.ofDigits_lt_base_pow_length one_lt_base h

theorem Canonical.of_le {negative : Bool} (hne : ds ≠ [])
    (hlt : ∀ d ∈ ds, d < base)
    (hlow : ds.length = 1 ∨ base ^ (ds.length - 1) ≤ Nat.ofDigits base ds.reverse) :
    Canonical ⟨negative, ds⟩ := by
  refine ⟨hne, hlt, ?_⟩
  cases ds with
  | nil => exact absurd rfl hne
  | cons d ds =>
      by_cases hd : d = 0
      · refine .inl ?_
        subst hd
        rcases hlow with hlen | hlow
        · have hnil : ds = [] := List.eq_nil_of_length_eq_zero (by simpa using hlen)
          rw [hnil]
        · rw [List.reverse_cons, Nat.ofDigits_append_zero] at hlow
          have hlt' := @ofDigits_lt ds.reverse fun e he =>
            hlt e (List.mem_cons_of_mem 0 (List.mem_reverse.mp he))
          rw [List.length_reverse] at hlt'
          exact absurd hlow (Nat.not_le.mpr hlt')
      · exact .inr (by simpa using hd)

variable {b : Bigint}

theorem Canonical.lt_magnitude (hb : b.Canonical) :
    b.magnitude < base ^ b.digits.length := by
  rw [magnitude_eq, ← List.length_reverse]
  exact ofDigits_lt fun d hd => hb.lt_base d (List.mem_reverse.mp hd)

theorem Canonical.magnitude_le (hb : b.Canonical) (hne : b.digits ≠ [0]) :
    base ^ (b.digits.length - 1) ≤ b.magnitude := by
  have hlead := hb.leading.resolve_left hne
  rw [magnitude_eq]
  cases hdigits : b.digits with
  | nil => exact absurd hdigits hb.ne_nil
  | cons d ds =>
      rw [hdigits] at hlead
      have hpos : 1 ≤ d := Nat.one_le_iff_ne_zero.mpr (by simpa using hlead)
      rw [List.reverse_cons, Nat.ofDigits_append, Nat.ofDigits_singleton,
        List.length_reverse, List.length_cons, Nat.add_sub_cancel]
      exact Nat.le_add_left_of_le (Nat.le_mul_of_pos_right _ hpos)

end Digits

section Add

variable {xs ys : List Nat} {carry : Nat}

/-- What the loops of `addBigint` compute. -/
theorem addDigits_spec (hlen : ys.length ≤ xs.length) (hx : ∀ d ∈ xs, d < base)
    (hy : ∀ d ∈ ys, d < base) (hcarry : carry ≤ 1) :
    Nat.ofDigits base (addDigits carry xs ys) =
        Nat.ofDigits base xs + Nat.ofDigits base ys + carry ∧
      (∀ d ∈ addDigits carry xs ys, d < base) ∧
      (addDigits carry xs ys).length = xs.length + 1 := by
  have hbase : base = 1000000000 := rfl
  induction xs generalizing ys carry with
  | nil =>
      obtain rfl : ys = [] := List.eq_nil_of_length_eq_zero (by simpa using hlen)
      refine ⟨by simp [addDigits], fun d hd => ?_, rfl⟩
      obtain rfl : d = carry := by simpa [addDigits] using hd
      omega
  | cons x xs ih =>
      have hx₀ := hx x List.mem_cons_self
      have hxs : ∀ d ∈ xs, d < base := fun d hd => hx d (List.mem_cons_of_mem x hd)
      -- the digit of `ys`, or zero behind its end
      obtain ⟨y, ys', hy₀, hys, hlen', hsum, hvalue⟩ : ∃ y ys', y < base ∧
          (∀ d ∈ ys', d < base) ∧ ys'.length ≤ xs.length ∧
          addDigits carry (x :: xs) ys =
            (x + y + carry) % base :: addDigits ((x + y + carry) / base) xs ys' ∧
          Nat.ofDigits base ys = y + base * Nat.ofDigits base ys' := by
        cases ys with
        | nil =>
            refine ⟨0, [], by decide, by simp, by simp, ?_, by simp⟩
            have hdigit : int32 (x + carry) = ((x + carry : Nat) : Int) :=
              int32_eq (by omega) (by omega)
            simp only [addDigits, hdigit, digitOf_nat, carryOf_nat, Nat.add_zero]
        | cons y ys =>
            have hy₀ := hy y List.mem_cons_self
            refine ⟨y, ys, hy₀, fun d hd => hy d (List.mem_cons_of_mem y hd),
              by simpa using hlen, ?_, Nat.ofDigits_cons⟩
            have hxy : int32 ((x : Int) + y) = ((x + y : Nat) : Int) :=
              int32_eq (by omega) (by omega)
            have hdigit : int32 (((x + y : Nat) : Int) + carry) =
                ((x + y + carry : Nat) : Int) := int32_eq (by omega) (by omega)
            simp only [addDigits, hxy, hdigit, digitOf_nat, carryOf_nat]
      have hcarry' : (x + y + carry) / base ≤ 1 :=
        Nat.lt_succ_iff.mp (Nat.div_lt_of_lt_mul (by omega))
      obtain ⟨hrest, hall, hlength⟩ := ih hlen' hxs hys hcarry'
      rw [hsum]
      refine ⟨?_, fun d hd => ?_, by simp [hlength]⟩
      · rw [Nat.ofDigits_cons, hrest, Nat.ofDigits_cons, hvalue]
        have hdiv := Nat.div_add_mod (x + y + carry) base
        simp only [Nat.mul_add]
        omega
      · rcases List.mem_cons.mp hd with rfl | hd
        · exact Nat.mod_lt _ (by decide)
        · exact hall d hd

variable {x y : Bigint}

theorem Canonical.reverse_lt (hx : x.Canonical) : ∀ d ∈ x.digits.reverse, d < base :=
  fun d hd => hx.lt_base d (List.mem_reverse.mp hd)

/-- The sum of two operands of one sign. -/
theorem addSame_spec (hx : x.Canonical) (hy : y.Canonical)
    (hlen : y.digits.length ≤ x.digits.length) :
    (addSame x y).Canonical ∧ (addSame x y).magnitude = x.magnitude + y.magnitude := by
  have hpos : 0 < x.digits.length := List.length_pos_of_ne_nil hx.ne_nil
  obtain ⟨hsum, hall, hlength⟩ := @addDigits_spec _ _ 0
    (by simpa using hlen) hx.reverse_lt hy.reverse_lt (by decide)
  rw [← magnitude_eq, ← magnitude_eq, Nat.add_zero] at hsum
  unfold addSame
  generalize addDigits 0 x.digits.reverse y.digits.reverse = sm at hsum hall hlength
  rw [List.length_reverse] at hlength
  have hall' : ∀ d ∈ sm.reverse, d < base :=
    fun d hd => hall d (List.mem_reverse.mp hd)
  by_cases hzero : sm.reverse.head? = some 0
  · -- no last carry: as many digits as the longer operand
    obtain ⟨ds, hds⟩ : ∃ ds, sm.reverse = 0 :: ds := by
      cases hrev : sm.reverse with
      | nil => simp [hrev] at hzero
      | cons d ds => exact ⟨ds, by rw [hrev] at hzero; simpa using hzero⟩
    have hlen' : ds.length = x.digits.length := by
      have := congrArg List.length hds
      simp [hlength] at this
      omega
    have hvalue : Nat.ofDigits base ds.reverse = x.magnitude + y.magnitude := by
      have hrev : sm = ds.reverse ++ [0] := by
        rw [← List.reverse_reverse sm, hds, List.reverse_cons]
      rw [← hsum, hrev, Nat.ofDigits_append_zero]
    have hlt : ∀ d ∈ ds, d < base := fun d hd =>
      hall' d (by rw [hds]; exact List.mem_cons_of_mem 0 hd)
    simp only [hds, List.head?_cons, if_true, List.tail_cons]
    refine ⟨.of_le ?_ hlt ?_, by rw [magnitude_eq]; exact hvalue⟩
    · rintro rfl
      simp at hlen'
      omega
    · by_cases hone : x.digits = [0]
      · exact .inl (by rw [hlen', hone]; rfl)
      · refine .inr ?_
        rw [hvalue, hlen']
        exact Nat.le_add_right_of_le (hx.magnitude_le hone)
  · simp only [if_neg hzero]
    refine ⟨⟨?_, hall', .inr hzero⟩, ?_⟩
    · intro hnil
      have := congrArg List.length hnil
      simp [hlength] at this
    · rw [magnitude_eq]
      simpa using hsum

end Add

section Sub

variable {xs ys ds : List Nat} {carry : Nat}

/-- One round of the loop of `subBigint`. -/
theorem subDigits_step {x : Nat} (hx : x < base) (hy : ys.head?.getD 0 < base)
    (hcarry : carry ≤ 1) : ∃ d borrow, d < base ∧ borrow ≤ 1 ∧
      subDigits carry (x :: xs) ys = d :: subDigits borrow xs ys.tail ∧
      d + (ys.head?.getD 0 + carry) = x + base * borrow := by
  have hbase : base = 1000000000 := rfl
  rw [subDigits]
  generalize ys.head?.getD 0 = y at hy
  have hxy : int64 ((x : Int) - y) = (x : Int) - y := int64_eq (by omega) (by omega)
  have hdigit : int64 ((x : Int) - y - carry) = (x : Int) - y - carry :=
    int64_eq (by omega) (by omega)
  simp only [hxy, hdigit]
  by_cases hneg : (x : Int) - y - carry < 0
  · have hnat : int64 ((x : Int) - y - carry + base) =
        ((x + base - (y + carry) : Nat) : Int) := by
      rw [int64_eq (by omega) (by omega)]
      omega
    refine ⟨x + base - (y + carry), 1, by omega, by omega, ?_, by omega⟩
    rw [if_pos hneg, hnat, digitOf_nat, Nat.mod_eq_of_lt (by omega)]
  · have hnat : (x : Int) - y - carry = ((x - (y + carry) : Nat) : Int) := by omega
    refine ⟨x - (y + carry), 0, by omega, by omega, ?_, by omega⟩
    rw [if_neg hneg, hnat, digitOf_nat, Nat.mod_eq_of_lt (by omega)]

/-- What the loop of `subBigint` computes, up to a last borrow. -/
theorem subDigits_spec (hlen : ys.length ≤ xs.length) (hx : ∀ d ∈ xs, d < base)
    (hy : ∀ d ∈ ys, d < base) (hcarry : carry ≤ 1) :
    (∃ borrow, Nat.ofDigits base (subDigits carry xs ys) +
        (Nat.ofDigits base ys + carry) =
          Nat.ofDigits base xs + base ^ xs.length * borrow) ∧
      (∀ d ∈ subDigits carry xs ys, d < base) ∧
      (subDigits carry xs ys).length = xs.length := by
  have hbase : base = 1000000000 := rfl
  induction xs generalizing ys carry with
  | nil =>
      obtain rfl : ys = [] := List.eq_nil_of_length_eq_zero (by simpa using hlen)
      exact ⟨⟨carry, by simp [subDigits]⟩, by simp [subDigits], rfl⟩
  | cons x xs ih =>
      have hx₀ := hx x List.mem_cons_self
      have hxs : ∀ d ∈ xs, d < base := fun d hd => hx d (List.mem_cons_of_mem x hd)
      have hy₀ : ys.head?.getD 0 < base := by
        cases ys with
        | nil => decide
        | cons y ys => exact hy y List.mem_cons_self
      have hys : ∀ d ∈ ys.tail, d < base := fun d hd => hy d (List.mem_of_mem_tail hd)
      have hlen' : ys.tail.length ≤ xs.length := by
        rw [List.length_tail]
        simp at hlen
        omega
      have hvalue : Nat.ofDigits base ys =
          ys.head?.getD 0 + base * Nat.ofDigits base ys.tail := by
        cases ys with
        | nil => rfl
        | cons y ys => exact Nat.ofDigits_cons
      obtain ⟨d, borrow, hd, hborrow, hstep, hdigit⟩ :=
        @subDigits_step xs ys _ _ hx₀ hy₀ hcarry
      obtain ⟨⟨last, hlast⟩, hall, hlength⟩ := ih hlen' hxs hys hborrow
      rw [hstep]
      refine ⟨⟨last, ?_⟩, fun e he => ?_, by simp [hlength]⟩
      · rw [Nat.ofDigits_cons, Nat.ofDigits_cons, hvalue, List.length_cons, Nat.pow_succ]
        generalize ys.head?.getD 0 = y at hdigit
        generalize Nat.ofDigits base (subDigits borrow xs ys.tail) = s at hlast
        generalize Nat.ofDigits base ys.tail = t at hlast
        generalize Nat.ofDigits base xs = u at hlast
        calc d + base * s + (y + base * t + carry)
            = d + (y + carry) + base * (s + t) := by ring
          _ = x + base * (s + (t + borrow)) := by rw [hdigit]; ring
          _ = x + base * u + base ^ xs.length * base * last := by rw [hlast]; ring
      · rcases List.mem_cons.mp he with rfl | he
        · exact hd
        · exact hall e he

/-- Without a last borrow it is the difference. -/
theorem subDigits_eq (hlen : ys.length ≤ xs.length) (hx : ∀ d ∈ xs, d < base)
    (hy : ∀ d ∈ ys, d < base) (hle : Nat.ofDigits base ys ≤ Nat.ofDigits base xs) :
    Nat.ofDigits base (subDigits 0 xs ys) =
      Nat.ofDigits base xs - Nat.ofDigits base ys := by
  obtain ⟨⟨borrow, hvalue⟩, hall, hlength⟩ := subDigits_spec hlen hx hy (Nat.zero_le 1)
  have hlt := ofDigits_lt hall
  rw [hlength] at hlt
  cases borrow with
  | zero => omega
  | succ borrow =>
      have hge : base ^ xs.length ≤ base ^ xs.length * (borrow + 1) :=
        Nat.le_mul_of_pos_right _ (Nat.succ_pos _)
      omega

/-- Leading zeros do not count, and none is left. -/
theorem trim_spec (hne : ds ≠ []) : trim ds ≠ [] ∧ (∀ d ∈ trim ds, d ∈ ds) ∧
    Nat.ofDigits base (trim ds).reverse = Nat.ofDigits base ds.reverse ∧
    (trim ds = [0] ∨ (trim ds).head? ≠ some 0) := by
  fun_induction trim ds with
  | case1 d ds ih =>
      obtain ⟨hne', hmem, hvalue, hlead⟩ := ih (by simp)
      refine ⟨hne', fun e he => List.mem_cons_of_mem 0 (hmem e he), ?_, hlead⟩
      rw [hvalue, @List.reverse_cons _ 0 (d :: ds), Nat.ofDigits_append_zero]
  | case2 ds hds =>
      refine ⟨hne, fun d hd => hd, rfl, ?_⟩
      cases ds with
      | nil => exact absurd rfl hne
      | cons d ds =>
          cases ds with
          | nil =>
              by_cases hd : d = 0
              · exact .inl (by rw [hd])
              · exact .inr (by simpa using hd)
          | cons e es =>
              refine .inr fun hhead => ?_
              obtain rfl : d = 0 := by simpa using hhead
              exact hds e es rfl

theorem trim_canonical {negative : Bool} (hne : ds ≠ []) (hlt : ∀ d ∈ ds, d < base) :
    Canonical ⟨negative, trim ds⟩ ∧
      magnitude ⟨negative, trim ds⟩ = Nat.ofDigits base ds.reverse := by
  obtain ⟨hne', hmem, hvalue, hlead⟩ := trim_spec hne
  exact ⟨⟨hne', fun d hd => hlt d (hmem d hd), hlead⟩, by rw [magnitude_eq]; exact hvalue⟩

variable {x y : Bigint}

theorem cmpDigits_spec {xs ys : List Nat} (hlen : xs.length = ys.length)
    (hx : ∀ d ∈ xs, d < base) (hy : ∀ d ∈ ys, d < base) :
    (cmpDigits xs ys = 1 ∧
        Nat.ofDigits base ys.reverse < Nat.ofDigits base xs.reverse) ∨
      (cmpDigits xs ys = 0 ∧ xs = ys) ∨
      (cmpDigits xs ys = -1 ∧
        Nat.ofDigits base xs.reverse < Nat.ofDigits base ys.reverse) := by
  -- a higher first digit outweighs all others
  have hfirst : ∀ {d e : Nat} {ds es : List Nat}, e < d → es.length = ds.length →
      (∀ c ∈ es, c < base) → Nat.ofDigits base (e :: es).reverse <
        Nat.ofDigits base (d :: ds).reverse := by
    intro d e ds es hlt hlen hes
    have hes' := @ofDigits_lt es.reverse fun c hc => hes c (List.mem_reverse.mp hc)
    rw [List.length_reverse] at hes'
    rw [List.reverse_cons, List.reverse_cons, Nat.ofDigits_append, Nat.ofDigits_append,
      Nat.ofDigits_singleton, Nat.ofDigits_singleton, List.length_reverse,
      List.length_reverse, ← hlen]
    have hmul := Nat.mul_le_mul_left (base ^ es.length) hlt
    rw [Nat.mul_succ] at hmul
    omega
  induction xs generalizing ys with
  | nil =>
      obtain rfl : ys = [] := List.eq_nil_of_length_eq_zero hlen.symm
      exact .inr (.inl ⟨rfl, rfl⟩)
  | cons x xs ih =>
      cases ys with
      | nil => simp at hlen
      | cons y ys =>
          have hlen' : xs.length = ys.length := by simpa using hlen
          have hxs : ∀ d ∈ xs, d < base := fun d hd => hx d (List.mem_cons_of_mem x hd)
          have hys : ∀ d ∈ ys, d < base := fun d hd => hy d (List.mem_cons_of_mem y hd)
          unfold cmpDigits
          by_cases hyx : y < x
          · exact .inl ⟨if_pos hyx, hfirst hyx hlen'.symm hys⟩
          · by_cases hxy : x < y
            · exact .inr (.inr ⟨by rw [if_neg hyx, if_pos hxy], hfirst hxy hlen' hxs⟩)
            · obtain rfl : x = y := by omega
              rw [if_neg hyx, if_neg hxy, List.reverse_cons, List.reverse_cons,
                Nat.ofDigits_append, Nat.ofDigits_append, List.length_reverse,
                List.length_reverse, hlen']
              rcases ih hlen' hxs hys with ⟨hcmp, hlt⟩ | ⟨hcmp, rfl⟩ | ⟨hcmp, hlt⟩
              · exact .inl ⟨hcmp, Nat.add_lt_add_right hlt _⟩
              · exact .inr (.inl ⟨hcmp, rfl⟩)
              · exact .inr (.inr ⟨hcmp, Nat.add_lt_add_right hlt _⟩)

theorem Canonical.magnitude_lt_of_length (hx : x.Canonical) (hy : y.Canonical)
    (hlen : x.digits.length < y.digits.length) : x.magnitude < y.magnitude := by
  have hne : y.digits ≠ [0] := by
    intro hzero
    rw [hzero, List.length_singleton, Nat.lt_one_iff] at hlen
    exact hx.ne_nil (List.eq_nil_of_length_eq_zero hlen)
  calc x.magnitude < base ^ x.digits.length := hx.lt_magnitude
    _ ≤ base ^ (y.digits.length - 1) :=
      Nat.pow_le_pow_right (by decide) (by omega)
    _ ≤ y.magnitude := hy.magnitude_le hne

/-- `cmpAbsBigint` compares the absolute values. -/
theorem cmpAbs_spec (hx : x.Canonical) (hy : y.Canonical) :
    (cmpAbsBigint x y = 1 ∧ y.magnitude < x.magnitude) ∨
      (cmpAbsBigint x y = 0 ∧ x.digits = y.digits) ∨
      (cmpAbsBigint x y = -1 ∧ x.magnitude < y.magnitude) := by
  unfold cmpAbsBigint
  by_cases hlen : x.digits.length = y.digits.length
  · rw [if_pos hlen, magnitude_eq, magnitude_eq]
    exact cmpDigits_spec hlen hx.lt_base hy.lt_base
  · rw [if_neg hlen]
    by_cases hlt : y.digits.length < x.digits.length
    · exact .inl ⟨if_pos hlt, hy.magnitude_lt_of_length hx hlt⟩
    · exact .inr (.inr ⟨if_neg hlt, hx.magnitude_lt_of_length hy (by omega)⟩)

theorem magnitude_digits {b c : Bigint} (h : b.digits = c.digits) :
    b.magnitude = c.magnitude := by
  rw [magnitude, h, magnitude]

theorem Canonical.length_le (hx : x.Canonical) (hy : y.Canonical)
    (h : x.magnitude ≤ y.magnitude) : x.digits.length ≤ y.digits.length := by
  by_contra hlt
  have := hy.magnitude_lt_of_length hx (by omega)
  omega

theorem subDigits_canonical {negative : Bool} (hx : x.Canonical) (hy : y.Canonical)
    (h : y.magnitude ≤ x.magnitude) :
    Canonical ⟨negative, trim (subDigits 0 x.digits.reverse y.digits.reverse).reverse⟩ ∧
      magnitude ⟨negative, trim (subDigits 0 x.digits.reverse y.digits.reverse).reverse⟩ =
        x.magnitude - y.magnitude := by
  have hlen := hy.length_le hx h
  obtain ⟨-, hall, hlength⟩ := @subDigits_spec _ _ 0 (by simpa using hlen)
    hx.reverse_lt hy.reverse_lt (by decide)
  have hvalue := subDigits_eq (by simpa using hlen) hx.reverse_lt hy.reverse_lt
    (by rwa [← magnitude_eq, ← magnitude_eq])
  rw [← magnitude_eq, ← magnitude_eq] at hvalue
  have hne : (subDigits 0 x.digits.reverse y.digits.reverse).reverse ≠ [] := by
    intro hnil
    have hzero := congrArg List.length hnil
    rw [List.length_reverse, hlength, List.length_reverse] at hzero
    exact hx.ne_nil (List.eq_nil_of_length_eq_zero hzero)
  obtain ⟨hcanonical, hmagnitude⟩ := @trim_canonical _ negative hne
    fun d hd => hall d (List.mem_reverse.mp hd)
  exact ⟨hcanonical, by rw [hmagnitude, List.reverse_reverse, hvalue]⟩

theorem toInt_eq (b : Bigint) :
    b.toInt = if b.negative then -(b.magnitude : Int) else b.magnitude := rfl

/-- The difference of two operands of one sign. -/
theorem subSame_spec (hx : x.Canonical) (hy : y.Canonical)
    (hsign : y.negative = x.negative) :
    (subSame x y).Canonical ∧ (subSame x y).toInt = x.toInt - y.toInt := by
  unfold subSame
  by_cases hcmp : 1 ≤ cmpAbsBigint x y
  · rw [if_pos hcmp]
    have hle : y.magnitude ≤ x.magnitude := by
      rcases cmpAbs_spec hx hy with ⟨-, hlt⟩ | ⟨heq, -⟩ | ⟨heq, -⟩ <;> omega
    obtain ⟨hcanonical, hmagnitude⟩ :=
      @subDigits_canonical _ _ x.negative hx hy hle
    refine ⟨hcanonical, ?_⟩
    rw [toInt_eq, hmagnitude, toInt_eq, toInt_eq, hsign]
    cases x.negative <;> simp <;> omega
  · rw [if_neg hcmp]
    have hle : x.magnitude ≤ y.magnitude := by
      rcases cmpAbs_spec hx hy with ⟨heq, -⟩ | ⟨-, heq⟩ | ⟨-, hlt⟩
      · omega
      · exact Nat.le_of_eq (magnitude_digits heq)
      · omega
    obtain ⟨hcanonical, hmagnitude⟩ :=
      @subDigits_canonical _ _ (!x.negative) hy hx hle
    refine ⟨hcanonical, ?_⟩
    rw [toInt_eq, hmagnitude, toInt_eq, toInt_eq, hsign]
    cases x.negative <;> simp <;> omega

end Sub

/-- A call that computes the integer `n` and leaves its operands alone. -/
structure Call.Computes (call : Call) (x y : Bigint) (n : Int) : Prop where
  canonical : call.result.Canonical
  value : call.result.toInt = n
  x : call.x = x
  y : call.y = y

section Signed

variable {x y : Bigint}

theorem Canonical.withSign (hx : x.Canonical) (negative : Bool) :
    Canonical { x with negative := negative } :=
  ⟨hx.ne_nil, hx.lt_base, hx.leading⟩

theorem toInt_withSign (x : Bigint) {negative : Bool} (h : x.negative ≠ negative) :
    toInt { x with negative := negative } = -x.toInt := by
  have hmagnitude : magnitude { x with negative := negative } = x.magnitude := rfl
  rw [toInt_eq, toInt_eq, hmagnitude]
  cases hx : x.negative <;> cases negative <;> simp_all

theorem addOrdered_spec (hx : x.Canonical) (hy : y.Canonical)
    (hlen : y.digits.length ≤ x.digits.length) :
    (addOrdered x y).Computes x y (x.toInt + y.toInt) := by
  unfold addOrdered
  by_cases hsign : x.negative = y.negative
  · rw [if_neg (not_not.mpr hsign)]
    obtain ⟨hcanonical, hmagnitude⟩ := addSame_spec hx hy hlen
    have hnegative : (addSame x y).negative = x.negative := rfl
    refine ⟨hcanonical, ?_, rfl, rfl⟩
    rw [toInt_eq, hmagnitude, hnegative, toInt_eq, toInt_eq, ← hsign]
    cases x.negative
    · simp
    · simp
      omega
  · rw [if_pos hsign]
    obtain ⟨hcanonical, hvalue⟩ := subSame_spec hx (hy.withSign x.negative) rfl
    refine ⟨hcanonical, ?_, rfl, ?_⟩
    · rw [hvalue, toInt_withSign y (Ne.symm hsign)]
      omega
    · have hrestored : (!x.negative) = y.negative := by
        cases hxn : x.negative <;> cases hyn : y.negative <;> simp_all
      simp [hrestored]

theorem addBigint_spec (hx : x.Canonical) (hy : y.Canonical) :
    (addBigint x y).Computes x y (x.toInt + y.toInt) := by
  unfold addBigint
  by_cases hlt : x.digits.length < y.digits.length
  · rw [if_pos hlt]
    obtain ⟨hcanonical, hvalue, hy', hx'⟩ := addOrdered_spec hy hx (Nat.le_of_lt hlt)
    exact ⟨hcanonical, by rw [hvalue, Int.add_comm], hx', hy'⟩
  · rw [if_neg hlt]
    exact addOrdered_spec hx hy (Nat.le_of_not_lt hlt)

theorem subBigint_spec (hx : x.Canonical) (hy : y.Canonical) :
    (subBigint x y).Computes x y (x.toInt - y.toInt) := by
  unfold subBigint
  by_cases hsign : x.negative = y.negative
  · rw [if_neg (not_not.mpr hsign)]
    obtain ⟨hcanonical, hvalue⟩ := subSame_spec hx hy hsign.symm
    exact ⟨hcanonical, hvalue, rfl, rfl⟩
  · rw [if_pos hsign]
    obtain ⟨hcanonical, hvalue, -, -⟩ := addBigint_spec hx (hy.withSign x.negative)
    refine ⟨hcanonical, ?_, rfl, ?_⟩
    · rw [hvalue, toInt_withSign y (Ne.symm hsign)]
      omega
    · have hrestored : (!x.negative) = y.negative := by
        cases hxn : x.negative <;> cases hyn : y.negative <;> simp_all
      simp [hrestored]

end Signed

section Mul

variable {xs ys qs zs : List Nat} {y carry : Nat}

/-- The machine words of the inner loop are wide enough. -/
theorem mulDigits_digit {q y x carry : Nat} (hq : q < base) (hy : y < base)
    (hx : x < base) (hcarry : carry < base) :
    int64 (int64 (q + int64 (y * x)) + carry) = ((q + y * x + carry : Nat) : Int) ∧
      (int32 ((q + y * x + carry) / base : Nat)).toNat = (q + y * x + carry) / base ∧
      (q + y * x + carry) / base < base := by
  have hbase : base = 1000000000 := rfl
  have hprod : y * x ≤ 999999999 * 999999999 := Nat.mul_le_mul (by omega) (by omega)
  rw [← Int.natCast_mul]
  generalize y * x = n at hprod
  have hn : int64 (n : Int) = n := int64_eq (by omega) (by omega)
  have hqn : int64 ((q : Int) + n) = (q : Int) + n := int64_eq (by omega) (by omega)
  have hsum : int64 ((q : Int) + n + carry) = ((q + n + carry : Nat) : Int) :=
    (int64_eq (by omega) (by omega)).trans (by omega)
  have hlt : (q + n + carry) / base < base := Nat.div_lt_of_lt_mul (by rw [hbase]; omega)
  refine ⟨by rw [hn, hqn, hsum], ?_, hlt⟩
  generalize (q + n + carry) / base = m at hlt
  rw [int32_eq (by omega) (by omega)]
  rfl

/-- One row of the product: the digits of `xs` times `y` on top of those of `qs`,
with the last carry in the zero behind them. -/
theorem mulDigits_spec (hlen : qs.length = xs.length) (hx : ∀ d ∈ xs, d < base)
    (hq : ∀ d ∈ qs, d < base) (hy : y < base) (hcarry : carry < base) :
    ∃ rs, mulDigits y carry xs (qs ++ 0 :: zs) = rs ++ zs ∧
      rs.length = xs.length + 1 ∧ (∀ d ∈ rs, d < base) ∧
      Nat.ofDigits base rs =
        Nat.ofDigits base qs + y * Nat.ofDigits base xs + carry := by
  have hbase : base = 1000000000 := rfl
  induction xs generalizing qs carry with
  | nil =>
      obtain rfl : qs = [] := List.eq_nil_of_length_eq_zero hlen
      have hdigit : int64 (((0 : Nat) : Int) + carry) = (carry : Nat) := by
        rw [Int.natCast_zero, Int.zero_add]
        exact int64_eq (by omega) (by omega)
      refine ⟨[carry], ?_, rfl, by simpa using hcarry, by simp⟩
      rw [List.nil_append, mulDigits, hdigit, digitOf_nat, Nat.mod_eq_of_lt hcarry]
      rfl
  | cons x xs ih =>
      cases qs with
      | nil => simp at hlen
      | cons q qs =>
          have hx₀ := hx x List.mem_cons_self
          have hq₀ := hq q List.mem_cons_self
          obtain ⟨hdigit, hint, hcarry'⟩ := mulDigits_digit hq₀ hy hx₀ hcarry
          obtain ⟨rs, hrs, hlength, hall, hvalue⟩ := ih
            (by simpa using hlen) (fun d hd => hx d (List.mem_cons_of_mem x hd))
            (fun d hd => hq d (List.mem_cons_of_mem q hd)) hcarry'
          refine ⟨(q + y * x + carry) % base :: rs, ?_, by simp [hlength], ?_, ?_⟩
          · rw [List.cons_append, mulDigits]
            simp only [hdigit, digitOf_nat, carryOf_nat, hint, hrs]
            rfl
          · intro d hd
            rcases List.mem_cons.mp hd with rfl | hd
            · exact Nat.mod_lt _ (by decide)
            · exact hall d hd
          · rw [Nat.ofDigits_cons, hvalue, Nat.ofDigits_cons, Nat.ofDigits_cons]
            have hdiv := Nat.div_add_mod (q + y * x + carry) base
            generalize Nat.ofDigits base qs = u
            generalize Nat.ofDigits base xs = v
            calc (q + y * x + carry) % base +
                  base * (u + y * v + (q + y * x + carry) / base)
                = base * ((q + y * x + carry) / base) + (q + y * x + carry) % base +
                    base * (u + y * v) := by ring
              _ = q + base * u + y * (x + base * v) + carry := by rw [hdiv]; ring

/-- The rows add up to the product. -/
theorem mulRows_spec (hlen : qs.length = xs.length) (hx : ∀ d ∈ xs, d < base)
    (hq : ∀ d ∈ qs, d < base) (hy : ∀ d ∈ ys, d < base) :
    (mulRows xs ys (qs ++ List.replicate ys.length 0)).length =
        xs.length + ys.length ∧
      (∀ d ∈ mulRows xs ys (qs ++ List.replicate ys.length 0), d < base) ∧
      Nat.ofDigits base (mulRows xs ys (qs ++ List.replicate ys.length 0)) =
        Nat.ofDigits base qs + Nat.ofDigits base xs * Nat.ofDigits base ys := by
  induction ys generalizing qs with
  | nil => exact ⟨by simp [mulRows, hlen], by simpa [mulRows] using hq, by simp [mulRows]⟩
  | cons y ys ih =>
      obtain ⟨rs, hrs, hlength, hall, hvalue⟩ :=
        @mulDigits_spec _ _ (List.replicate ys.length 0) _ 0 hlen hx hq
          (hy y List.mem_cons_self) (by decide)
      cases rs with
      | nil => simp at hlength
      | cons r rs =>
          have hstep : mulRows xs (y :: ys)
              (qs ++ List.replicate (y :: ys).length 0) =
                r :: mulRows xs ys (rs ++ List.replicate ys.length 0) := by
            rw [List.length_cons, List.replicate_succ, mulRows, hrs]
            rfl
          obtain ⟨hlength', hall', hvalue'⟩ := @ih rs (by simpa using hlength)
            (fun d hd => hall d (List.mem_cons_of_mem r hd))
            (fun d hd => hy d (List.mem_cons_of_mem y hd))
          rw [hstep]
          refine ⟨?_, fun d hd => ?_, ?_⟩
          · rw [List.length_cons, hlength', List.length_cons]
            omega
          · rcases List.mem_cons.mp hd with rfl | hd
            · exact hall d List.mem_cons_self
            · exact hall' d hd
          · rw [Nat.ofDigits_cons] at hvalue
            rw [Nat.ofDigits_cons, hvalue', Nat.ofDigits_cons, Nat.mul_add,
              ← Nat.add_assoc, hvalue]
            ring

variable {a b : Bigint}

theorem mulBigint_spec (ha : a.Canonical) (hb : b.Canonical) :
    (mulBigint a b).Computes a b (a.toInt * b.toInt) := by
  obtain ⟨hlength, hall, hvalue⟩ := @mulRows_spec a.digits.reverse
    b.digits.reverse (List.replicate a.digits.length 0)
    (by simp) ha.reverse_lt (by simp [show 0 < base by decide]) hb.reverse_lt
  rw [← magnitude_eq, ← magnitude_eq, Nat.ofDigits_replicate_zero, Nat.zero_add]
    at hvalue
  unfold mulBigint
  rw [List.replicate_append_replicate, List.length_reverse] at hlength hall hvalue
  generalize mulRows a.digits.reverse b.digits.reverse
    (List.replicate (a.digits.length + b.digits.length) 0) = p at hlength hall hvalue
  have hne : p.reverse ≠ [] := by
    intro hnil
    have hzero := congrArg List.length hnil
    have hpos := List.length_pos_of_ne_nil ha.ne_nil
    rw [List.length_reverse, hlength, List.length_reverse, List.length_nil] at hzero
    omega
  obtain ⟨hcanonical, hmagnitude⟩ := @trim_canonical _
    (a.negative != b.negative) hne fun d hd => hall d (List.mem_reverse.mp hd)
  rw [List.reverse_reverse, hvalue] at hmagnitude
  refine ⟨hcanonical, ?_, rfl, rfl⟩
  simp only [toInt_eq, hmagnitude, Int.natCast_mul]
  cases a.negative <;> cases b.negative <;> simp

end Mul

/-- The sign of zero is normalised. -/
def NormalZero (b : Bigint) : Prop := b.digits = [0] → b.negative = false

/-- Addition, subtraction and multiplication are exact on canonical operands, up
to the sign of zero, and leave their operands as they were. -/
theorem arithmetic_exact (x y : Bigint) (hx : x.Canonical) (hy : y.Canonical) :
    (addBigint x y).Computes x y (x.toInt + y.toInt) ∧
      (subBigint x y).Computes x y (x.toInt - y.toInt) ∧
      (mulBigint x y).Computes x y (x.toInt * y.toInt) :=
  ⟨addBigint_spec hx hy, subBigint_spec hx hy, mulBigint_spec hx hy⟩

/-- `10 ^ 9 - 1`, which carries, and `-(10 ^ 9)`, which borrows. -/
theorem arithmetic_exact_carry :
    (addBigint ⟨false, [999999999]⟩ ⟨true, [1, 0]⟩).result.toInt = -1 ∧
      (mulBigint ⟨false, [999999999]⟩ ⟨true, [1, 0]⟩).result.toInt =
        -999999999000000000 := by
  have hx : Canonical ⟨false, [999999999]⟩ := ⟨by simp, by decide, .inr (by decide)⟩
  have hy : Canonical ⟨true, [1, 0]⟩ := ⟨by simp, by decide, .inr (by decide)⟩
  obtain ⟨hadd, -, hmul⟩ := arithmetic_exact _ _ hx hy
  exact ⟨hadd.value, hmul.value⟩

/-- `(- 5L 5L)` is a zero with the sign -1. -/
theorem subBigint_negativeZero :
    Canonical ⟨false, [5]⟩ ∧ NormalZero ⟨false, [5]⟩ ∧
      ¬ NormalZero (subBigint ⟨false, [5]⟩ ⟨false, [5]⟩).result := by
  refine ⟨⟨by simp, by decide, .inr (by decide)⟩, fun _ => rfl, fun hzero => ?_⟩
  have hnegative : (subBigint ⟨false, [5]⟩ ⟨false, [5]⟩).result = ⟨true, [0]⟩ := by decide
  rw [hnegative] at hzero
  cases hzero rfl

end Bigint

end NewLispNeo
