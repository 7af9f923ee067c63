/-
Numbers as text: decimal digits, and the digit arrays of bigints as
`bigintToDigits` writes and `strToBigint` reads them.
-/
import NewLispNeo.Startup
import Mathlib.Data.Nat.Log
import Mathlib.Tactic.Ring
import Mathlib.Tactic.Positivity

namespace NewLispNeo

/-- `isDigit`. -/
def isDigit (b : UInt8) : Bool := '0'.toUInt8 ≤ b && b ≤ '9'.toUInt8

/-- The number a row of digits stands for. -/
def textValue (text : List UInt8) : Nat :=
  text.foldl (fun n b => 10 * n + (b.toNat - 48)) 0

/-- `count` digits of a number below `10 ^ count`, highest first. -/
def digitsFrom : Nat → Nat → List UInt8
  | 0, _ => []
  | count + 1, v =>
      let q := v / 10 ^ count
      UInt8.ofNat (q + 48) :: digitsFrom count (v - q * 10 ^ count)

/-- What `%d` prints of a natural number. -/
def decimal (n : Nat) : List UInt8 := digitsFrom (Nat.log 10 n + 1) n

/-- `%PRIdPTR`. -/
def decimalInt (n : Int) : List UInt8 :=
  if n < 0 then '-'.toUInt8 :: decimal n.natAbs else decimal n.natAbs

theorem textValue_append (l m : List UInt8) :
    textValue (l ++ m) = textValue l * 10 ^ m.length + textValue m := by
  have hfold : ∀ (m : List UInt8) (k : Nat),
      m.foldl (fun n b => 10 * n + (b.toNat - 48)) k =
        k * 10 ^ m.length + textValue m := by
    intro m
    induction m with
    | nil => intro k; simp [textValue]
    | cons b m ih =>
        intro k
        have hone := ih (10 * 0 + (b.toNat - 48))
        have hk := ih (10 * k + (b.toNat - 48))
        rw [List.foldl_cons, hk, List.length_cons, Nat.pow_succ]
        rw [show textValue (b :: m) = _ from hone]
        ring
  have happend := hfold m (textValue l)
  rwa [textValue, List.foldl_append]

theorem textValue_cons (b : UInt8) (l : List UInt8) :
    textValue (b :: l) = (b.toNat - 48) * 10 ^ l.length + textValue l := by
  have happend := textValue_append [b] l
  simpa [textValue] using happend

theorem isDigit_iff {b : UInt8} : isDigit b = true ↔ 48 ≤ b.toNat ∧ b.toNat ≤ 57 := by
  simp [isDigit, Char.toUInt8, UInt8.le_iff_toNat_le]

theorem toNat_digit {q : Nat} (hq : q < 10) : (UInt8.ofNat (q + 48)).toNat = q + 48 := by
  simp only [UInt8.toNat_ofNat']
  omega

section DigitsFrom

variable {count v : Nat}

@[simp] theorem length_digitsFrom (count v : Nat) :
    (digitsFrom count v).length = count := by
  induction count generalizing v with
  | zero => rfl
  | succ count ih => simp [digitsFrom, ih]

theorem digit_lt (h : v < 10 ^ (count + 1)) : v / 10 ^ count < 10 :=
  Nat.div_lt_of_lt_mul (by rw [← Nat.pow_succ]; exact h)

theorem digit_rest (count v : Nat) : v - v / 10 ^ count * 10 ^ count < 10 ^ count := by
  have hpos : 0 < 10 ^ count := by positivity
  have hmod := Nat.mod_lt v hpos
  have hdiv := Nat.div_add_mod v (10 ^ count)
  rw [Nat.mul_comm] at hdiv
  omega

theorem isDigit_digitsFrom (h : v < 10 ^ count) :
    ∀ b ∈ digitsFrom count v, isDigit b = true := by
  induction count generalizing v with
  | zero => simp [digitsFrom]
  | succ count ih =>
      intro b hb
      rcases List.mem_cons.mp hb with rfl | hb
      · have hq := digit_lt h
        rw [isDigit_iff, toNat_digit hq]
        exact ⟨Nat.le_add_left 48 _, by exact Nat.add_le_add_right (Nat.le_of_lt_succ hq) 48⟩
      · exact ih (digit_rest count v) b hb

theorem textValue_digitsFrom (h : v < 10 ^ count) :
    textValue (digitsFrom count v) = v := by
  induction count generalizing v with
  | zero =>
      obtain rfl : v = 0 := by simpa using h
      rfl
  | succ count ih =>
      have hq := digit_lt h
      rw [digitsFrom, textValue_cons, ih (digit_rest count v), length_digitsFrom,
        toNat_digit hq]
      have hle := Nat.div_mul_le_self v (10 ^ count)
      rw [Nat.add_sub_cancel]
      exact Nat.add_sub_cancel' hle

/-- The first digit of a number that needs them all is no zero. -/
theorem head_digitsFrom (h : v < 10 ^ (count + 1)) (hlow : 10 ^ count ≤ v) :
    ∃ b l, digitsFrom (count + 1) v = b :: l ∧ b ≠ '0'.toUInt8 := by
  refine ⟨_, _, rfl, fun hzero => ?_⟩
  have hq := digit_lt h
  have hpos : 0 < v / 10 ^ count := Nat.div_pos hlow (by positivity)
  have hnat := congrArg UInt8.toNat hzero
  rw [toNat_digit hq] at hnat
  simp [Char.toUInt8] at hnat
  omega

end DigitsFrom

section Decimal

theorem lt_pow_decimal (n : Nat) : n < 10 ^ (Nat.log 10 n + 1) :=
  Nat.lt_pow_succ_log_self (by decide) n

theorem isDigit_decimal (n : Nat) : ∀ b ∈ decimal n, isDigit b = true :=
  isDigit_digitsFrom (lt_pow_decimal n)

theorem textValue_decimal (n : Nat) : textValue (decimal n) = n :=
  textValue_digitsFrom (lt_pow_decimal n)

/-- A decimal number is zero or starts with another digit. -/
theorem decimal_cases (n : Nat) : decimal n = ['0'.toUInt8] ∨
    ∃ b l, decimal n = b :: l ∧ b ≠ '0'.toUInt8 := by
  by_cases hn : n = 0
  · exact .inl (by simp [hn, decimal, digitsFrom, Char.toUInt8])
  · exact .inr (head_digitsFrom (lt_pow_decimal n) (Nat.pow_log_le_self 10 hn))

end Decimal

namespace Bigint

/-- The digits of the first big digit, from `count` down. -/
def firstCount : Nat → Nat → Nat
  | 0, _ => 0
  | count + 1, d => if d / 10 ^ count = 0 then firstCount count d else count + 1

/-- `bigintToDigits`, with the offset 48. -/
def toDigits (b : Bigint) : List UInt8 :=
  if b.digits = [0] then ['0'.toUInt8]
  else
    match b.digits with
    | [] => []
    | d :: ds =>
        (if b.negative then ['-'.toUInt8] else []) ++
          digitsFrom (firstCount 9 d) d ++ ds.flatMap (digitsFrom 9)

/-- Remove leading zeros. -/
def dropZeros : List UInt8 → List UInt8
  | b :: c :: l => if b = '0'.toUInt8 then dropZeros (c :: l) else b :: c :: l
  | l => l

/-- `n` big digits: the first of `cut` digits, the others of nine. -/
def bigDigits : Nat → Nat → List UInt8 → List Nat
  | 0, _, _ => []
  | n + 1, cut, ptr => textValue (ptr.take cut) :: bigDigits n 9 (ptr.drop cut)

/-- `strToBigint`. -/
def ofText (str : List UInt8) : Bigint :=
  let str := if str.getLast? = some 'L'.toUInt8 then str.dropLast else str
  let sign := str.head?
  let ptr := dropZeros
    (if sign = some '-'.toUInt8 ∨ sign = some '+'.toUInt8 then str.tail else str)
  let cut := ptr.length % 9
  { negative := sign = some '-'.toUInt8
    digits :=
      if cut = 0 then bigDigits (ptr.length / 9) 9 ptr
      else bigDigits (ptr.length / 9 + 1) cut ptr }

/-- A digit array as the arithmetic makes it: big digits, no leading zero. -/
structure Canonical (b : Bigint) : Prop where
  ne_nil : b.digits ≠ []
  lt_base : ∀ d ∈ b.digits, d < base
  leading : b.digits = [0] ∨ b.digits.head? ≠ some 0

/-- There is one zero. -/
def unsigned (b : Bigint) : Bigint :=
  if b.digits = [0] then ⟨false, [0]⟩ else b

theorem firstCount_spec {count d : Nat} (hpos : 0 < d) (hlt : d < 10 ^ count) :
    ∃ k, k < count ∧ firstCount count d = k + 1 ∧ 10 ^ k ≤ d ∧ d < 10 ^ (k + 1) := by
  induction count with
  | zero => simp at hlt; omega
  | succ count ih =>
      unfold firstCount
      split
      · rename_i hzero
        have hlow : d < 10 ^ count :=
          (Nat.div_eq_zero_iff.mp hzero).resolve_left (by positivity)
        obtain ⟨k, hk, hspec⟩ := ih hlow
        exact ⟨k, by omega, hspec⟩
      · rename_i hne
        refine ⟨count, by omega, rfl, ?_, hlt⟩
        by_contra hlow
        exact hne (Nat.div_eq_of_lt (by omega))

theorem dropZeros_of_head {l : List UInt8} (h : l.head? ≠ some '0'.toUInt8) :
    dropZeros l = l := by
  unfold dropZeros
  split
  · rename_i b c l
    rw [if_neg (by simpa using h)]
  · rfl

theorem base_eq : base = 10 ^ 9 := rfl

section BigDigits

variable {ds : List Nat}

/-- Nine digits each are read back as the big digits. -/
theorem bigDigits_flatMap (h : ∀ d ∈ ds, d < base) :
    bigDigits ds.length 9 (ds.flatMap (digitsFrom 9)) = ds := by
  induction ds with
  | nil => rfl
  | cons d ds ih =>
      have hd : d < 10 ^ 9 := h d List.mem_cons_self
      have htake : (digitsFrom 9 d ++ ds.flatMap (digitsFrom 9)).take 9 =
          digitsFrom 9 d := List.take_left' (length_digitsFrom 9 d)
      have hdrop : (digitsFrom 9 d ++ ds.flatMap (digitsFrom 9)).drop 9 =
          ds.flatMap (digitsFrom 9) := List.drop_left' (length_digitsFrom 9 d)
      rw [List.length_cons, List.flatMap_cons, bigDigits, htake, hdrop,
        textValue_digitsFrom hd, ih fun e he => h e (List.mem_cons_of_mem d he)]

theorem length_flatMap_digits (ds : List Nat) :
    (ds.flatMap (digitsFrom 9)).length = 9 * ds.length := by
  induction ds with
  | nil => rfl
  | cons d ds ih =>
      rw [List.flatMap_cons, List.length_append, ih, length_digitsFrom,
        List.length_cons]
      omega

/-- What a row of digits means is what its big digits mean. -/
theorem foldl_bigDigits {n cut k : Nat} {ptr : List UInt8}
    (h : ptr.length = cut + 9 * n) :
    (bigDigits (n + 1) cut ptr).foldl (fun n d => n * base + d) k =
      k * base * 10 ^ (9 * n) + textValue ptr := by
  induction n generalizing cut k ptr with
  | zero =>
      have htake : ptr.take cut = ptr := List.take_of_length_le (by omega)
      simp [bigDigits, htake]
  | succ n ih =>
      have hdrop : (ptr.drop cut).length = 9 + 9 * n := by
        rw [List.length_drop]
        omega
      have hsplit := textValue_append (ptr.take cut) (ptr.drop cut)
      rw [List.take_append_drop, hdrop] at hsplit
      rw [bigDigits, List.foldl_cons, ih hdrop, hsplit, base_eq]
      ring

end BigDigits

section Text

variable {b : Bigint}

theorem toDigits_cons {d : Nat} {ds : List Nat} (hdigits : b.digits = d :: ds)
    (hzero : b.digits ≠ [0]) : b.toDigits =
      (if b.negative then ['-'.toUInt8] else []) ++
        digitsFrom (firstCount 9 d) d ++ ds.flatMap (digitsFrom 9) := by
  unfold toDigits
  rw [if_neg hzero, hdigits]

/-- A canonical bigint is zero, or its text is its sign and its digits, of which
the first is no zero. -/
theorem Canonical.toDigits_cases (hb : b.Canonical) :
    b.digits = [0] ∧ b.toDigits = ['0'.toUInt8] ∨
      ∃ d ds k, b.digits = d :: ds ∧ k < 9 ∧ 10 ^ k ≤ d ∧ d < 10 ^ (k + 1) ∧
        b.toDigits = (if b.negative then ['-'.toUInt8] else []) ++
          (digitsFrom (k + 1) d ++ ds.flatMap (digitsFrom 9)) := by
  by_cases hzero : b.digits = [0]
  · exact .inl ⟨hzero, by simp [toDigits, hzero]⟩
  · cases hdigits : b.digits with
    | nil => exact absurd hdigits hb.ne_nil
    | cons d ds =>
        have hlead := hb.leading.resolve_left hzero
        rw [hdigits] at hlead
        have hpos : 0 < d := Nat.pos_of_ne_zero (by simpa using hlead)
        have hlt : d < 10 ^ 9 := hb.lt_base d (by simp [hdigits])
        obtain ⟨k, hk, hcount, hlow, hhigh⟩ := firstCount_spec hpos hlt
        refine .inr ⟨d, ds, k, rfl, hk, hlow, hhigh, ?_⟩
        rw [toDigits_cons hdigits hzero, hcount, List.append_assoc]

/-- The digits of a canonical bigint without the sign. -/
theorem Canonical.digits_of_text (hb : b.Canonical) {d k : Nat} {ds : List Nat}
    (hdigits : b.digits = d :: ds) (hlow : 10 ^ k ≤ d) (hhigh : d < 10 ^ (k + 1)) :
    (∀ c ∈ digitsFrom (k + 1) d ++ ds.flatMap (digitsFrom 9), isDigit c = true) ∧
      ∃ c l, digitsFrom (k + 1) d ++ ds.flatMap (digitsFrom 9) = c :: l ∧
        c ≠ '0'.toUInt8 := by
  constructor
  · intro c hc
    rcases List.mem_append.mp hc with hc | hc
    · exact isDigit_digitsFrom hhigh c hc
    · obtain ⟨e, he, hc⟩ := List.mem_flatMap.mp hc
      have hlt : e < 10 ^ 9 :=
        hb.lt_base e (by rw [hdigits]; exact List.mem_cons_of_mem d he)
      exact isDigit_digitsFrom hlt c hc
  · obtain ⟨c, l, heq, hc⟩ := head_digitsFrom hhigh hlow
    exact ⟨c, l ++ ds.flatMap (digitsFrom 9), by rw [heq, List.cons_append], hc⟩

/-- A row of digits without leading zeros. -/
structure Plain (t : List UInt8) : Prop where
  ne_nil : t ≠ []
  isDigit : ∀ c ∈ t, isDigit c = true
  leading : t = ['0'.toUInt8] ∨ t.head? ≠ some '0'.toUInt8

/-- The sign `bigintToDigits` writes. -/
def signText (negative : Bool) : List UInt8 :=
  if negative then ['-'.toUInt8] else []

/-- The big digits of a row of digits. -/
def groups (t : List UInt8) : List Nat :=
  if t.length % 9 = 0 then bigDigits (t.length / 9) 9 t
  else bigDigits (t.length / 9 + 1) (t.length % 9) t

theorem not_digit {b : UInt8} (h : isDigit b = true) :
    b ≠ '-'.toUInt8 ∧ b ≠ '+'.toUInt8 ∧ b ≠ 'L'.toUInt8 := by
  refine ⟨?_, ?_, ?_⟩ <;> rintro rfl <;> revert h <;> decide

variable {t : List UInt8}

theorem Plain.dropZeros (ht : Plain t) : dropZeros t = t := by
  rcases ht.leading with rfl | hlead
  · rfl
  · exact dropZeros_of_head hlead

theorem Plain.getLast_ne (ht : Plain t) (negative : Bool) :
    (signText negative ++ t).getLast? ≠ some 'L'.toUInt8 := by
  intro hlast
  rw [List.getLast?_append_of_ne_nil _ ht.ne_nil] at hlast
  exact (not_digit (ht.isDigit _ (List.mem_of_getLast? hlast))).2.2 rfl

/-- `strToBigint` on a sign and digits, with or without the `L`. -/
theorem Plain.ofText_eq (ht : Plain t) (negative : Bool) :
    ofText (signText negative ++ t) = ⟨negative, groups t⟩ ∧
      ofText (signText negative ++ t ++ ['L'.toUInt8]) =
        ⟨negative, groups t⟩ := by
  have hsigned : ofText (signText negative ++ t) = ⟨negative, groups t⟩ := by
    unfold Bigint.ofText
    rw [if_neg (ht.getLast_ne negative)]
    cases negative with
    | true =>
        simp [signText, ht.dropZeros, groups]
    | false =>
        cases t with
        | nil => exact absurd rfl ht.ne_nil
        | cons c l =>
            obtain ⟨hminus, hplus, -⟩ := not_digit (ht.isDigit c List.mem_cons_self)
            simp [signText, hminus, hplus, ht.dropZeros, groups]
  refine ⟨hsigned, ?_⟩
  rw [← hsigned]
  unfold Bigint.ofText
  rw [if_neg (ht.getLast_ne negative), if_pos (by simp), List.dropLast_concat]

theorem Plain.magnitude (ht : Plain t) (negative : Bool) :
    magnitude ⟨negative, groups t⟩ = textValue t := by
  unfold Bigint.magnitude groups
  have hdiv := Nat.div_add_mod t.length 9
  split
  · rename_i hcut
    have hpos : 0 < t.length := List.length_pos_of_ne_nil ht.ne_nil
    obtain ⟨n, hn⟩ : ∃ n, t.length / 9 = n + 1 := ⟨t.length / 9 - 1, by omega⟩
    have hfold := @foldl_bigDigits n 9 0 t (by omega)
    simpa [hn] using hfold
  · have hfold := @foldl_bigDigits (t.length / 9) (t.length % 9) 0 t (by omega)
    simpa using hfold

/-- Where a bigint is not zero, its text is its sign and a plain row of digits,
whose groups are its big digits. -/
theorem Canonical.text (hb : b.Canonical) :
    ∃ t, Plain t ∧ b.unsigned = ⟨b.unsigned.negative, groups t⟩ ∧
      b.toDigits = signText b.unsigned.negative ++ t := by
  rcases hb.toDigits_cases with ⟨hzero, htext⟩ | ⟨d, ds, k, hdigits, hk, hlow, hhigh, htext⟩
  · refine ⟨['0'.toUInt8], ⟨by simp, ?_, .inl rfl⟩, ?_, ?_⟩
    · simp [NewLispNeo.isDigit, Char.toUInt8]
    · simp [unsigned, hzero, groups, bigDigits, textValue, Char.toUInt8]
    · simp [unsigned, hzero, htext, signText]
  · have hpos : 0 < d := Nat.lt_of_lt_of_le (by positivity) hlow
    have hne : b.digits ≠ [0] := by
      rw [hdigits]
      intro heq
      have : d = 0 := by simpa using congrArg List.head? heq
      omega
    have hunsigned : b.unsigned = b := if_neg hne
    obtain ⟨hall, c, l, hcons, hc⟩ := hb.digits_of_text hdigits hlow hhigh
    refine ⟨_, ⟨by simp [hcons], hall, .inr (by simp [hcons, hc])⟩, ?_, ?_⟩
    · rw [hunsigned]
      have hds : ∀ e ∈ ds, e < base := fun e he =>
        hb.lt_base e (by rw [hdigits]; exact List.mem_cons_of_mem d he)
      have hlen : (digitsFrom (k + 1) d ++ ds.flatMap (digitsFrom 9)).length =
          k + 1 + 9 * ds.length := by
        rw [List.length_append, length_digitsFrom, length_flatMap_digits]
      have hgroups : bigDigits (ds.length + 1) (k + 1)
          (digitsFrom (k + 1) d ++ ds.flatMap (digitsFrom 9)) = d :: ds := by
        rw [bigDigits, List.take_left' (length_digitsFrom _ d),
          List.drop_left' (length_digitsFrom _ d), textValue_digitsFrom hhigh,
          bigDigits_flatMap hds]
      have heq : groups (digitsFrom (k + 1) d ++ ds.flatMap (digitsFrom 9)) =
          d :: ds := by
        unfold groups
        rw [hlen]
        split
        · rename_i hcut
          obtain rfl : k = 8 := by omega
          rw [show (8 + 1 + 9 * ds.length) / 9 = ds.length + 1 by omega]
          exact hgroups
        · rw [show (k + 1 + 9 * ds.length) % 9 = k + 1 by omega,
            show (k + 1 + 9 * ds.length) / 9 = ds.length by omega]
          exact hgroups
      rw [heq, ← hdigits]
    · rw [hunsigned]
      exact htext

/-- What is printed with the `L` is read back. -/
theorem Canonical.ofText_toDigits (hb : b.Canonical) :
    Bigint.ofText (b.toDigits ++ ['L'.toUInt8]) = b.unsigned := by
  obtain ⟨t, ht, hgroups, htext⟩ := hb.text
  rw [htext, (ht.ofText_eq _).2, ← hgroups]

theorem magnitude_unsigned (b : Bigint) : b.unsigned.magnitude = b.magnitude := by
  unfold unsigned
  split
  · rename_i hzero
    simp [magnitude, hzero]
  · rfl

end Text

end Bigint

end NewLispNeo
