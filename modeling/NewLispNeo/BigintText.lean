/-
Big integers in decimal: `strToBigint` on all texts it can be given, and what
`bigintToDigits` and `lengthBigint` say of the length.
-/
import NewLispNeo.BigintArith

namespace NewLispNeo

namespace Bigint

/-- `bigintToDigits` with the offset 48: the text, and `*slen` where that is set.  The
length is an `int`, and two bytes more are allocated. -/
def bigintToDigits (b : Bigint) : Outcome Error (List UInt8 × Option Nat) :=
  if b.digits = [0] then .value (b.toDigits, none)
  else
    let len := 9 * (b.digits.length - 1) + firstCount 9 (b.digits.headD 0)
    if 2 ^ 31 ≤ len + 2 then .undefined else .value (b.toDigits, some len)

/-- `lengthBigint`, with an `int` for the length. -/
def lengthBigint (b : Bigint) : Outcome Error Nat :=
  let bigdigit := b.digits.headD 0
  if bigdigit = 0 then .value 1
  else
    let cnt := 9 - firstCount 9 bigdigit
    let length := 9 * (b.digits.length - 1) + 9
    if 2 ^ 31 ≤ length then .undefined else .value (length - cnt)

/-- The sign of a text. -/
inductive TextSign where
  | none | plus | minus
deriving DecidableEq

def TextSign.text : TextSign → List UInt8
  | .none => []
  | .plus => ['+'.toUInt8]
  | .minus => ['-'.toUInt8]

/-- The texts that `strToBigint` reads: an optional sign, digits and an optional `L`.
The length is passed as an `int`. -/
structure DecimalText where
  sign : TextSign
  digits : List UInt8
  suffix : Bool
  ne_nil : digits ≠ []
  isDigit : ∀ c ∈ digits, isDigit c = true
  fits : digits.length + 2 < 2 ^ 31

namespace DecimalText

def text (s : DecimalText) : List UInt8 :=
  s.sign.text ++ s.digits ++ if s.suffix then ['L'.toUInt8] else []

def negative (s : DecimalText) : Bool := s.sign = .minus

/-- The number that the text stands for. -/
def value (s : DecimalText) : Int :=
  if s.negative then -(textValue s.digits : Int) else textValue s.digits

end DecimalText

/-- `strToBigint` makes a canonical digit array of the number, with the sign of the
text. -/
structure ReadsExactly (s : DecimalText) : Prop where
  canonical : (ofText s.text).Canonical
  negative : (ofText s.text).negative = s.negative
  value : (ofText s.text).toInt = s.value

/-- `bigintToDigits` writes the digits without leading zeros, with a sign where the
number is negative, and says how many there are where it is not zero; `lengthBigint` says
the same, and `strToBigint` reads the text back. -/
structure WritesExactly (b : Bigint) : Prop where
  written : ∃ t slen, Plain t ∧ textValue t = b.magnitude ∧
    bigintToDigits b = .value (signText b.unsigned.negative ++ t, slen) ∧
    (b.digits ≠ [0] → slen = some t.length) ∧ lengthBigint b = .value t.length
  readBack : ofText b.toDigits = b.unsigned

/-! ### Reading -/

theorem textValue_lt {t : List UInt8} (h : ∀ c ∈ t, isDigit c = true) :
    textValue t < 10 ^ t.length := by
  induction t with
  | nil => decide
  | cons c t ih =>
      have hc := isDigit_iff.mp (h c List.mem_cons_self)
      have ht := ih fun b hb => h b (List.mem_cons_of_mem c hb)
      rw [textValue_cons, List.length_cons, Nat.pow_succ]
      have hmul := Nat.mul_le_mul_right (10 ^ t.length) (by omega : c.toNat - 48 ≤ 9)
      omega

theorem dropZeros_spec {t : List UInt8} (hne : t ≠ [])
    (h : ∀ c ∈ t, isDigit c = true) :
    Plain (dropZeros t) ∧ textValue (dropZeros t) = textValue t := by
  induction t with
  | nil => exact absurd rfl hne
  | cons c t ih =>
      by_cases hlast : t = []
      · subst hlast
        refine ⟨⟨by simp [dropZeros], h, ?_⟩, rfl⟩
        by_cases hc : c = '0'.toUInt8
        · exact .inl (by rw [hc]; rfl)
        · exact .inr (by simpa [dropZeros] using hc)
      · by_cases hc : c = '0'.toUInt8
        · have hdrop : dropZeros (c :: t) = dropZeros t := by
            cases t with
            | nil => exact absurd rfl hlast
            | cons d t => exact if_pos hc
          obtain ⟨hplain, hvalue⟩ :=
            ih hlast fun b hb => h b (List.mem_cons_of_mem c hb)
          rw [hdrop]
          refine ⟨hplain, ?_⟩
          rw [hvalue, textValue_cons, hc]
          simp [Char.toUInt8]
        · have hhead : (c :: t).head? ≠ some '0'.toUInt8 := by simpa using hc
          rw [dropZeros_of_head hhead]
          exact ⟨⟨List.cons_ne_nil c t, h, .inr hhead⟩, rfl⟩

theorem ofText_text (s : DecimalText) :
    ofText s.text = ⟨s.negative, groups (dropZeros s.digits)⟩ := by
  have hlast : (s.sign.text ++ s.digits).getLast? ≠ some 'L'.toUInt8 := by
    rw [List.getLast?_append_of_ne_nil _ s.ne_nil]
    intro hmem
    exact (not_digit (s.isDigit _ (List.mem_of_getLast? hmem))).2.2 rfl
  have hplain : ofText (s.sign.text ++ s.digits) =
      ⟨s.negative, groups (dropZeros s.digits)⟩ := by
    unfold ofText
    rw [if_neg hlast]
    unfold DecimalText.negative
    cases hsign : s.sign with
    | minus => simp [TextSign.text, groups]
    | plus =>
        have hdiff : '+'.toUInt8 ≠ '-'.toUInt8 := by decide
        simp [TextSign.text, groups, hdiff]
    | none =>
        have hdigit := s.isDigit
        cases hdigits : s.digits with
        | nil => exact absurd hdigits s.ne_nil
        | cons c l =>
            rw [hdigits] at hdigit
            obtain ⟨hminus, hplus, -⟩ := not_digit (hdigit c List.mem_cons_self)
            simp [TextSign.text, groups, hminus, hplus]
  unfold DecimalText.text
  cases s.suffix with
  | false => simpa using hplain
  | true =>
      rw [← hplain]
      unfold ofText
      rw [if_neg hlast, if_pos rfl, if_pos (by simp), List.dropLast_concat]

section Groups

variable {t : List UInt8}

theorem length_bigDigits (n cut : Nat) (t : List UInt8) : (bigDigits n cut t).length = n := by
  induction n generalizing cut t with
  | zero => rfl
  | succ n ih => rw [bigDigits, List.length_cons, ih]

theorem bigDigits_lt {n cut : Nat} (hcut : cut ≤ 9) (h : ∀ c ∈ t, isDigit c = true) :
    ∀ d ∈ bigDigits n cut t, d < base := by
  induction n generalizing cut t with
  | zero => simp [bigDigits]
  | succ n ih =>
      intro d hd
      rcases List.mem_cons.mp hd with rfl | hd
      · have htake : ∀ c ∈ t.take cut, isDigit c = true := fun c hc =>
          h c (List.mem_of_mem_take hc)
        have hlt := textValue_lt htake
        have hpow : 10 ^ (t.take cut).length ≤ 10 ^ 9 :=
          Nat.pow_le_pow_right (by decide) (by rw [List.length_take]; omega)
        exact Nat.lt_of_lt_of_le hlt hpow
      · exact ih (Nat.le_refl 9) (fun c hc => h c (List.mem_of_mem_drop hc)) d hd

/-- A row of digits is at least the first power of ten of its length. -/
theorem Plain.le_textValue (ht : Plain t) (hzero : t ≠ ['0'.toUInt8]) :
    10 ^ (t.length - 1) ≤ textValue t := by
  cases t with
  | nil => exact absurd rfl ht.ne_nil
  | cons c l =>
      have hc : c ≠ '0'.toUInt8 := by simpa using ht.leading.resolve_left hzero
      have hlow := (isDigit_iff.mp (ht.isDigit c List.mem_cons_self)).1
      have hne : c.toNat ≠ 48 := fun heq => hc (UInt8.toNat_inj.mp heq)
      have hmul := Nat.mul_le_mul_right (10 ^ l.length) (by omega : 1 ≤ c.toNat - 48)
      rw [textValue_cons, List.length_cons, Nat.add_sub_cancel]
      omega

/-- The number of digits. -/
theorem Plain.log_textValue (ht : Plain t) (hzero : t ≠ ['0'.toUInt8]) :
    Nat.log 10 (textValue t) + 1 = t.length := by
  have hpos : 0 < t.length := List.length_pos_of_ne_nil ht.ne_nil
  have hlog : Nat.log 10 (textValue t) = t.length - 1 :=
    (Nat.log_eq_iff (.inr ⟨by decide, by
      have hle := ht.le_textValue hzero
      have hten : 0 < 10 ^ (t.length - 1) := by positivity
      omega⟩)).mpr
      ⟨ht.le_textValue hzero, by
        rw [Nat.sub_add_cancel hpos]
        exact textValue_lt ht.isDigit⟩
  omega

theorem Plain.canonical (ht : Plain t) (negative : Bool) :
    Canonical ⟨negative, groups t⟩ := by
  have hpos : 0 < t.length := List.length_pos_of_ne_nil ht.ne_nil
  have hlength : (groups t).length = (t.length + 8) / 9 := by
    unfold groups
    split
    · rw [length_bigDigits]
      omega
    · rw [length_bigDigits]
      omega
  refine Canonical.of_le ?_ ?_ ?_
  · intro hnil
    rw [hnil, List.length_nil] at hlength
    omega
  · unfold groups
    split
    · exact bigDigits_lt (Nat.le_refl 9) ht.isDigit
    · exact bigDigits_lt (by omega) ht.isDigit
  · by_cases hzero : t = ['0'.toUInt8]
    · subst hzero
      exact .inl rfl
    · refine .inr ?_
      have hmagnitude := ht.magnitude negative
      rw [magnitude_eq] at hmagnitude
      rw [hmagnitude, hlength, base_eq, ← Nat.pow_mul]
      refine (Nat.pow_le_pow_right (by decide) ?_).trans (ht.le_textValue hzero)
      omega

end Groups

theorem readsExactly (s : DecimalText) : ReadsExactly s := by
  obtain ⟨hplain, hvalue⟩ := dropZeros_spec s.ne_nil s.isDigit
  refine ⟨?_, ?_, ?_⟩
  · rw [ofText_text]
    exact hplain.canonical _
  · rw [ofText_text]
  · rw [ofText_text, toInt_eq, hplain.magnitude, hvalue]
    rfl

/-! ### Writing -/

variable {b : Bigint}

/-- The counts of the digits of a canonical bigint other than zero. -/
theorem Canonical.counts (hb : b.Canonical) (hne : b.digits ≠ [0]) {t : List UInt8}
    (htext : b.toDigits = signText b.unsigned.negative ++ t) :
    b.digits.headD 0 ≠ 0 ∧ firstCount 9 (b.digits.headD 0) ≤ 9 ∧
      9 * (b.digits.length - 1) + firstCount 9 (b.digits.headD 0) = t.length := by
  rcases hb.toDigits_cases with ⟨hzero, -⟩ | ⟨d, ds, k, hdigits, hk, hlow, hhigh, htext'⟩
  · exact absurd hzero hne
  · have hunsigned : b.unsigned = b := if_neg hne
    rw [hunsigned] at htext
    have hsame : t = digitsFrom (k + 1) d ++ ds.flatMap (digitsFrom 9) :=
      List.append_cancel_left (htext.symm.trans htext')
    have hlength : t.length = k + 1 + 9 * ds.length := by
      rw [hsame, List.length_append, length_digitsFrom, length_flatMap_digits]
    have hpos : 0 < d := Nat.lt_of_lt_of_le (by positivity) hlow
    have hcount : firstCount 9 d = k + 1 := by
      have hnine : d < 10 ^ 9 := hb.lt_base d (by simp [hdigits])
      obtain ⟨j, hj, hfirst, hjlow, hjhigh⟩ := firstCount_spec hpos hnine
      have hle : j < k + 1 := (Nat.pow_lt_pow_iff_right (by decide)).mp
        (Nat.lt_of_le_of_lt hjlow hhigh)
      have hge : k < j + 1 := (Nat.pow_lt_pow_iff_right (by decide)).mp
        (Nat.lt_of_le_of_lt hlow hjhigh)
      omega
    refine ⟨?_, ?_, ?_⟩
    · rw [hdigits]
      exact Nat.pos_iff_ne_zero.mp hpos
    · rw [hdigits, List.headD_cons, hcount]
      omega
    · rw [hdigits, List.headD_cons, hcount, hlength, List.length_cons]
      omega

theorem writesExactly (hb : b.Canonical)
    (hfits : Nat.log 10 b.magnitude + 1 ≤ 2 ^ 31 - 3) : WritesExactly b := by
  obtain ⟨t, ht, hgroups, htext⟩ := hb.text
  have hread : ofText b.toDigits = b.unsigned := by
    rw [htext, (ht.ofText_eq _).1, ← hgroups]
  have hvalue : textValue t = b.magnitude := by
    rw [← magnitude_unsigned, hgroups, ht.magnitude]
  refine ⟨?_, hread⟩
  by_cases hzero : b.digits = [0]
  · refine ⟨t, none, ht, hvalue, ?_, fun h => absurd hzero h, ?_⟩
    · rw [bigintToDigits, if_pos hzero, htext]
    · have hone : t = ['0'.toUInt8] := by
        by_contra hne
        have hle := ht.le_textValue hne
        have hten : 0 < 10 ^ (t.length - 1) := by positivity
        have hnull : b.magnitude = 0 := by rw [magnitude, hzero]; rfl
        omega
      rw [lengthBigint, hzero, hone]
      rfl
  · obtain ⟨hhead, hnine, hcount⟩ := hb.counts hzero htext
    have htzero : t ≠ ['0'.toUInt8] := by
      rintro rfl
      have hunsigned : b.unsigned = b := if_neg hzero
      rw [hunsigned] at hgroups
      rw [hgroups] at hzero
      exact hzero rfl
    have hlog : Nat.log 10 b.magnitude + 1 = t.length := by
      rw [← hvalue]
      exact ht.log_textValue htzero
    have hpos : 0 < b.digits.length := List.length_pos_of_ne_nil hb.ne_nil
    refine ⟨t, some t.length, ht, hvalue, ?_, fun _ => rfl, ?_⟩
    · rw [bigintToDigits, if_neg hzero]
      simp only [hcount, htext]
      rw [if_neg (by omega)]
    · rw [lengthBigint]
      simp only [if_neg hhead]
      rw [if_neg (by omega)]
      exact congrArg Outcome.value (by omega)

/-- Decimal conversion is exact, with a sign for the zero of a text that has one. -/
theorem decimal_exact (s : DecimalText) (b : Bigint) (hb : b.Canonical)
    (hfits : Nat.log 10 b.magnitude + 1 ≤ 2 ^ 31 - 3) :
    ReadsExactly s ∧ WritesExactly b :=
  ⟨readsExactly s, writesExactly hb hfits⟩

/-- `+007`. -/
def seven : DecimalText where
  sign := .plus
  digits := ['0'.toUInt8, '0'.toUInt8, '7'.toUInt8]
  suffix := false
  ne_nil := List.cons_ne_nil _ _
  isDigit := List.all_eq_true.mp rfl
  fits := by decide

theorem decimal_exact_seven : ReadsExactly seven ∧ WritesExactly ⟨true, [1, 0]⟩ := by
  have hb : Canonical ⟨true, [1, 0]⟩ := ⟨by simp, by decide, .inr (by decide)⟩
  refine decimal_exact seven ⟨true, [1, 0]⟩ hb ?_
  have hmagnitude : magnitude ⟨true, [1, 0]⟩ = 10 ^ 9 := by decide
  rw [hmagnitude, Nat.log_pow (by decide)]
  decide

/-- `-0L`. -/
def negativeZero : DecimalText where
  sign := .minus
  digits := ['0'.toUInt8]
  suffix := true
  ne_nil := List.cons_ne_nil _ _
  isDigit := List.all_eq_true.mp rfl
  fits := by decide

/-- `-0L` is read as a zero with a minus sign, and the length of zero is not set. -/
theorem not_normalZero_ofText : ¬ NormalZero (ofText negativeZero.text) ∧
    bigintToDigits ⟨false, [0]⟩ = .value (['0'.toUInt8], none) := by
  constructor
  · intro hzero
    exact absurd (hzero rfl) (by decide)
  · rfl

end Bigint

end NewLispNeo
