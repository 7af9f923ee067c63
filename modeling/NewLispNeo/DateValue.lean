/-
The date primitives of nl-filesys.c: `calcDateValue` under `date-value`, and `date-list`.
-/
import NewLispNeo.BigintArith
import NewLispNeo.Calendar

namespace NewLispNeo

open Calendar

/-- `struct tm`. -/
structure Tm where
  tm_sec : ℤ
  tm_min : ℤ
  tm_hour : ℤ
  tm_mday : ℤ
  tm_mon : ℤ
  tm_year : ℤ
  tm_wday : ℤ
  tm_yday : ℤ

/-- What an `int` holds. -/
def FitsInt (n : ℤ) : Prop := -2 ^ 31 ≤ n ∧ n < 2 ^ 31

instance : DecidablePred FitsInt := fun _ => inferInstanceAs (Decidable (_ ∧ _))

/-- `gmtime` of the C library: no result for a year that `tm_year` does not hold. -/
def gmtime (timer : Word) : Option Tm :=
  let t := DateTime.ofEpochSecond timer.toInt
  if FitsInt (t.year - 1900) then
    some
      { tm_sec := t.second
        tm_min := t.minute
        tm_hour := t.hour
        tm_mday := t.day
        tm_mon := t.month - 1
        tm_year := t.year - 1900
        tm_wday := t.weekDay
        tm_yday := t.yearDay }
  else none

/-- `calcDateValue`, where `time_t` has 64 bits.  The days are counted in type `int`. -/
def calcDateValue (year month day hour min sec : ℤ) : Word :=
  let days := int32 (int32 (int32 (int32 (int32 (367 * year)
    - (int32 (7 * int32 (year + (int32 (month + 9)).tdiv 12))).tdiv 4)
    + (int32 (275 * month)).tdiv 9) + day) + 1721013)
  let value : Word := .ofInt 64 days * 24 * 3600 + .ofInt 64 (int32 (hour * 3600))
    + .ofInt 64 (int32 (min * 60)) + .ofInt 64 sec - 413319296
  if value &&& 0x80000000 ≠ 0 then value ||| 0xFFFFFFFF00000000
  else value &&& 0x00000000FFFFFFFF

/-- `p_dateList` without an index. -/
def p_dateList (timeValue : Word) : Outcome Error (List Word) :=
  match gmtime timeValue with
  | none => .error .invalidParameter
  | some ttm =>
      .value ([ttm.tm_year + 1900, ttm.tm_mon + 1, ttm.tm_mday, ttm.tm_hour, ttm.tm_min,
        ttm.tm_sec, ttm.tm_yday + 1, if ttm.tm_wday = 0 then 7 else ttm.tm_wday].map
          (BitVec.ofInt 64))

/-- `p_dateValue` on the integers its parameters evaluate to, given one by one or in a
list.  Passing them to `calcDateValue` cuts them to an `int`. -/
def p_dateValue (now : Word) (params : List Word) : Outcome Error Word :=
  let int (n : Word) : ℤ := int32 n.toInt
  match params with
  | [] => .value now
  | [year, month, day] => .value (calcDateValue (int year) (int month) (int day) 0 0 0)
  | year :: month :: day :: hour :: min :: sec :: _ =>
      .value (calcDateValue (int year) (int month) (int day) (int hour) (int min) (int sec))
  | _ => .error .missingArgument

section Mask

theorem signBit_iff (value : Word) :
    value &&& 0x80000000 ≠ 0 ↔ value.getLsbD 31 = true := by
  have hmask : (0x80000000 : Word) = BitVec.twoPow 64 31 := by decide
  have hpos : BitVec.twoPow 64 31 ≠ 0#64 := by decide
  rw [hmask, BitVec.and_twoPow]
  split_ifs with h
  · exact ⟨fun _ => h, fun _ => hpos⟩
  · exact ⟨fun hne => absurd rfl hne, fun hbit => absurd hbit h⟩

/-- The masks at the end of `calcDateValue` keep 32 bits and extend their sign. -/
theorem signMask_eq (value : Word) :
    (if value &&& 0x80000000 ≠ 0 then value ||| 0xFFFFFFFF00000000
      else value &&& 0x00000000FFFFFFFF) = (value.setWidth 32).signExtend 64 := by
  have hlow : ∀ i < 64, (0x00000000FFFFFFFF : Word).getLsbD i = decide (i < 32) := by
    decide
  have hhigh : ∀ i < 64, (0xFFFFFFFF00000000 : Word).getLsbD i = decide (32 ≤ i) := by
    decide
  have hmsb : (value.setWidth 32).msb = value.getLsbD 31 := by
    simp [BitVec.msb_eq_getLsbD_last]
  apply BitVec.eq_of_getLsbD_eq
  intro i hi
  rw [BitVec.getLsbD_signExtend, hmsb, BitVec.getLsbD_setWidth]
  split_ifs with hbit hpos hpos
  · rw [BitVec.getLsbD_or, hhigh i hi]
    simp [hi, hpos]
  · rw [BitVec.getLsbD_or, hhigh i hi, (signBit_iff value).mp hbit]
    simp [hi, not_lt.mp hpos]
  · rw [BitVec.getLsbD_and, hlow i hi]
    simp [hi, hpos]
  · rw [signBit_iff, Bool.not_eq_true] at hbit
    rw [BitVec.getLsbD_and, hlow i hi, hbit]
    simp [hpos]

theorem toInt_signMask (n : ℤ) :
    (((BitVec.ofInt 64 n).setWidth 32).signExtend 64 : Word).toInt = n.bmod (2 ^ 32) := by
  have hpos : 0 ≤ n % ((2 ^ 64 : ℕ) : ℤ) := Int.emod_nonneg _ (by decide)
  have hmod : n % ((2 ^ 64 : ℕ) : ℤ) % ((2 ^ 32 : ℕ) : ℤ) = n % ((2 ^ 32 : ℕ) : ℤ) :=
    Int.emod_emod_of_dvd n ⟨2 ^ 32, by decide⟩
  rw [BitVec.toInt_signExtend_of_le (by decide), BitVec.toInt_setWidth, BitVec.toNat_ofInt,
    Int.toNat_of_nonneg hpos, ← Int.emod_bmod, hmod, Int.emod_bmod]

end Mask

section Exact

/-- What `calcDateValue` counts as the days of a date. -/
def formulaDays (year month day : ℤ) : ℤ :=
  367 * year - (7 * (year + (month + 9).tdiv 12)).tdiv 4 + (275 * month).tdiv 9 + day
    + 1721013

theorem tdiv_four_bounds (n : ℤ) : n - 3 ≤ 4 * n.tdiv 4 ∧ 4 * n.tdiv 4 ≤ n + 3 := by
  have hsplit := Int.mul_tdiv_add_tmod n 4
  have hhigh := Int.tmod_lt_of_pos n (show (0 : ℤ) < 4 by decide)
  have hlow := Int.lt_tmod_of_pos n (show (0 : ℤ) < 4 by decide)
  omega

variable (t : DateTime)

theorem day_le_31 : t.day ≤ 31 := by
  have hle := t.day_le
  unfold daysInMonth at hle
  split_ifs at hle <;> omega

/-- The terms of the formula, each in an `int`. -/
theorem int32_formulaDays {year month day : ℤ} (hfits : FitsInt (367 * year))
    (hmonth : 1 ≤ month ∧ month ≤ 12) (hday : 1 ≤ day ∧ day ≤ 31) :
    int32 (int32 (int32 (int32 (int32 (367 * year)
      - (int32 (7 * int32 (year + (int32 (month + 9)).tdiv 12))).tdiv 4)
      + (int32 (275 * month)).tdiv 9) + day) + 1721013) = formulaDays year month day := by
  have hninth : (275 * month).tdiv 9 = 275 * month / 9 :=
    Int.tdiv_eq_ediv_of_nonneg (by omega)
  have hquarter : (month + 9).tdiv 12 = (month + 9) / 12 :=
    Int.tdiv_eq_ediv_of_nonneg (by omega)
  obtain ⟨hlow, hhigh⟩ := hfits
  have hnine : 0 ≤ 275 * month / 9 ∧ 275 * month / 9 ≤ 367 := by omega
  have htwelve : 0 ≤ (month + 9) / 12 ∧ (month + 9) / 12 ≤ 1 := by omega
  have hfour := tdiv_four_bounds (7 * (year + (month + 9) / 12))
  rw [int32_eq (n := month + 9) (by omega) (by omega),
    int32_eq (n := 275 * month) (by omega) (by omega), formulaDays, hninth, hquarter]
  clear hninth hquarter hmonth
  generalize (275 * month / 9 : ℤ) = ninth at hnine ⊢
  generalize ((month + 9) / 12 : ℤ) = quarter at htwelve hfour ⊢
  rw [int32_eq (n := 367 * year) hlow hhigh, int32_eq (n := year + quarter) (by omega) (by omega),
    int32_eq (n := 7 * (year + quarter)) (by omega) (by omega)]
  generalize (7 * (year + quarter)).tdiv 4 = skipped at hfour ⊢
  rw [int32_eq (n := 367 * year - skipped) (by omega) (by omega),
    int32_eq (n := 367 * year - skipped + ninth) (by omega) (by omega),
    int32_eq (n := 367 * year - skipped + ninth + day) (by omega) (by omega),
    int32_eq (n := 367 * year - skipped + ninth + day + 1721013) (by omega) (by omega)]

/-- Where the largest product fits an `int`, so does everything else. -/
theorem calcDateValue_toInt (hfits : FitsInt (367 * t.year)) :
    (calcDateValue t.year t.month t.day t.hour t.minute t.second).toInt =
      (86400 * formulaDays t.year t.month t.day + t.secondOfDay - 413319296).bmod (2 ^ 32) := by
  have hmonth : 1 ≤ (t.month : ℤ) ∧ (t.month : ℤ) ≤ 12 :=
    ⟨by exact_mod_cast t.month_pos, by exact_mod_cast t.month_le⟩
  have hday : 1 ≤ (t.day : ℤ) ∧ (t.day : ℤ) ≤ 31 :=
    ⟨by exact_mod_cast t.day_pos, by exact_mod_cast day_le_31 t⟩
  have hhour : int32 (t.hour * 3600) = t.hour * 3600 := by
    have hlt := t.hour_lt
    exact int32_eq (by omega) (by omega)
  have hminute : int32 (t.minute * 60) = t.minute * 60 := by
    have hlt := t.minute_lt
    exact int32_eq (by omega) (by omega)
  have hvalue : (.ofInt 64 (formulaDays t.year t.month t.day) * 24 * 3600
      + .ofInt 64 (t.hour * 3600) + .ofInt 64 (t.minute * 60) + .ofInt 64 t.second
      - 413319296 : Word) =
      .ofInt 64 (86400 * formulaDays t.year t.month t.day + t.secondOfDay - 413319296) := by
    apply BitVec.eq_of_toInt_eq
    simp only [BitVec.toInt_sub, BitVec.toInt_add, BitVec.toInt_mul, BitVec.toInt_ofInt,
      Nat.reducePow, BitVec.ofNat_eq_ofNat, BitVec.reduceToInt, Int.bmod_mul_bmod,
      Int.add_bmod_bmod, Int.bmod_add_bmod, Int.bmod_sub_bmod]
    refine congrArg (fun z : ℤ => z.bmod 18446744073709551616) ?_
    rw [DateTime.secondOfDay]
    push_cast
    omega
  rw [calcDateValue, int32_formulaDays hfits hmonth hday, hhour, hminute, signMask_eq,
    ← toInt_signMask, ← hvalue]

/-- What the terms in the month grow by from one month to the next. -/
theorem daysInMonth_formula (year : ℤ) {month : ℕ} (hpos : 1 ≤ month) (hlt : month < 12) :
    (daysInMonth year month : ℤ) = 275 * (month + 1) / 9 - 275 * month / 9 -
      (if IsLeap year then 1 else 2) * ((month + 1 + 9) / 12 - (month + 9) / 12) := by
  have htable : ∀ february ∈ ([28, 29] : List ℕ), ∀ m < (12 : ℕ), 1 ≤ m →
      ((if m = 2 then february else if m = 4 ∨ m = 6 ∨ m = 9 ∨ m = 11 then 30 else 31 : ℕ) : ℤ) =
        275 * ((m : ℤ) + 1) / 9 - 275 * m / 9 -
          (30 - february) * (((m : ℤ) + 1 + 9) / 12 - (m + 9) / 12) := by
    decide
  by_cases hleap : IsLeap year
  · rw [daysInMonth, if_pos hleap, if_pos hleap]
    exact htable 29 (by decide) month hlt hpos
  · rw [daysInMonth, if_neg hleap, if_neg hleap]
    exact htable 28 (by decide) month hlt hpos

/-- The terms in the month count the days before it, where a February of 30 days is
taken back by the leap day and one day more. -/
theorem daysToMonth_formula (year : ℤ) {month : ℕ} (hpos : 1 ≤ month) (hle : month ≤ 12) :
    (daysToMonth year month : ℤ) =
      275 * month / 9 - (if IsLeap year then 1 else 2) * ((month + 9) / 12) - 30 := by
  induction month, hpos using Nat.le_induction with
  | base => split_ifs <;> rfl
  | succ month hpos ih =>
      have hstep := daysInMonth_formula year hpos (Nat.lt_of_succ_le hle)
      rw [daysToMonth_succ year hpos, Nat.cast_add, ih (Nat.le_of_succ_le hle), hstep,
        Int.mul_sub]
      push_cast
      omega

/-- The days of the years before one from 1901 to 2099. -/
theorem daysToYear_of_bounds {year : ℤ} (hyear : 1901 ≤ year) (hcentury : year < 2100) :
    daysToYear year = 365 * year + (year - 1) / 4 - 719542 := by
  have hskipped : (year - 1) / 100 - (year - 1) / 400 = 15 := by omega
  have hfirst : leapsTo 1969 = 477 := by decide
  rw [daysToYear, hfirst, leapsTo]
  omega

theorem isLeap_iff_of_bounds {year : ℤ} (hyear : 1901 ≤ year) (hcentury : year < 2100) :
    IsLeap year ↔ year % 4 = 0 := by
  constructor
  · exact And.left
  · intro hfour
    refine ⟨hfour, ?_⟩
    by_cases hzero : year % 100 = 0
    · exact .inr (by omega)
    · exact .inl hzero

/-- The quarters that the formula takes off from March on, and before. -/
theorem quarters_before (year : ℤ) : 7 * year / 4 = 2 * year - (year - 1) / 4 - 1 := by
  omega

theorem quarters_after (year : ℤ) :
    7 * (year + 1) / 4 = 2 * year - (year - 1) / 4 + if year % 4 = 0 then 0 else 1 := by
  by_cases hfour : year % 4 = 0
  · rw [if_pos hfour]
    omega
  · rw [if_neg hfour]
    obtain hrest | hrest | hrest : year % 4 = 1 ∨ year % 4 = 2 ∨ year % 4 = 3 := by omega
    · omega
    · omega
    · omega

/-- From 1901 to 2099 every fourth year is a leap year, and there the formula counts the
days. -/
theorem formulaDays_eq (hyear : 1901 ≤ t.year) (hcentury : t.year < 2100) :
    formulaDays t.year t.month t.day = t.dayNumber + 2440587 := by
  have hmonth := daysToMonth_formula t.year t.month_pos t.month_le
  have hdays : ((t.day - 1 : ℕ) : ℤ) = t.day - 1 := Int.natCast_sub t.day_pos
  have hquarter : ((t.month : ℤ) + 9) / 12 = 0 ∨ ((t.month : ℤ) + 9) / 12 = 1 := by
    have hpos := t.month_pos
    have hle := t.month_le
    omega
  have hnonneg : (0 : ℤ) ≤ (t.month : ℤ) + 9 := by omega
  have hnonneg' : (0 : ℤ) ≤ 275 * (t.month : ℤ) := by omega
  rw [formulaDays, Date.dayNumber, Date.yearDay, daysToYear_of_bounds hyear hcentury,
    Nat.cast_add, hdays, hmonth, Int.tdiv_eq_ediv_of_nonneg hnonneg,
    Int.tdiv_eq_ediv_of_nonneg hnonneg']
  clear hmonth hdays hnonneg hnonneg'
  rcases hquarter with hq | hq
  · rw [hq, Int.add_zero, Int.mul_zero,
      Int.tdiv_eq_ediv_of_nonneg (by omega : (0 : ℤ) ≤ 7 * t.year), quarters_before]
    omega
  · rw [hq, Int.tdiv_eq_ediv_of_nonneg (by omega : (0 : ℤ) ≤ 7 * (t.year + 1)), quarters_after,
      Int.mul_one]
    by_cases hleap : t.year % 4 = 0
    · rw [if_pos hleap, if_pos ((isLeap_iff_of_bounds hyear hcentury).mpr hleap)]
      omega
    · rw [if_neg hleap, if_neg (mt (isLeap_iff_of_bounds hyear hcentury).mp hleap)]
      omega

/-- The seconds that 32 bits with a sign hold: from 1901-12-13 20:45:52 to 2038-01-19
03:14:07. -/
def InTimeRange (t : DateTime) : Prop := -2 ^ 31 ≤ t.epochSecond ∧ t.epochSecond < 2 ^ 31

variable {t}

theorem InTimeRange.year_bounds (h : InTimeRange t) : 1901 ≤ t.year ∧ t.year < 2100 := by
  obtain ⟨hlow, hhigh⟩ := h
  have hsecond := t.secondOfDay_lt
  have hyearDay := t.yearDay_lt
  have hnext := daysToYear_succ t.year
  unfold DateTime.epochSecond Date.dayNumber at hlow hhigh
  constructor
  · by_contra hlt
    have hmono := daysToYear_mono (show t.year + 1 ≤ 1901 by omega)
    have hfirst : daysToYear 1901 = -25202 := by decide
    omega
  · by_contra hle
    have hmono := daysToYear_mono (show 2100 ≤ t.year by omega)
    have hfirst : daysToYear 2100 = 47482 := by decide
    omega

theorem InTimeRange.fitsInt (h : InTimeRange t) : FitsInt (367 * t.year) := by
  have hbounds := h.year_bounds
  unfold FitsInt
  omega

/-- `calcDateValue` keeps the seconds of 32 bits, and no others. -/
theorem calcDateValue_eq_iff (hfits : FitsInt (367 * t.year)) :
    (calcDateValue t.year t.month t.day t.hour t.minute t.second).toInt = t.epochSecond ↔
      InTimeRange t := by
  rw [calcDateValue_toInt t hfits]
  constructor
  · intro heq
    unfold InTimeRange
    rw [← heq]
    exact ⟨Int.le_bmod (by decide), Int.bmod_lt (by decide)⟩
  · intro h
    obtain ⟨hyear, hcentury⟩ := h.year_bounds
    -- the correction is the seconds of 2440587 days less 49 times 2 ^ 32
    have hshift : 86400 * formulaDays t.year t.month t.day + t.secondOfDay - 413319296 =
        t.epochSecond + 49 * 2 ^ 32 := by
      rw [formulaDays_eq t hyear hcentury]
      unfold DateTime.epochSecond
      omega
    rw [hshift]
    obtain ⟨hlow, hhigh⟩ := h
    have hmod : (t.epochSecond + 49 * 2 ^ 32).bmod (2 ^ 32) = t.epochSecond.bmod (2 ^ 32) :=
      Int.add_mul_bmod_self_right t.epochSecond 49 (2 ^ 32)
    rw [hmod]
    exact Int.bmod_eq_of_le (by omega) (by omega)

end Exact

section RoundTrip

/-- The parameters of `date-value` for a date and time, year first. -/
def dateParams (t : DateTime) : List Word :=
  [t.year, t.month, t.day, t.hour, t.minute, t.second].map (BitVec.ofInt 64)

/-- `date-value` gives the seconds since the epoch, and `date-list` the date again. -/
def Converts (now : Word) (t : DateTime) : Prop :=
  ∃ timeValue, p_dateValue now (dateParams t) = .value timeValue ∧
    timeValue.toInt = t.epochSecond ∧
    ∃ days, p_dateList timeValue = .value (dateParams t ++ days)

variable {now : Word} {t : DateTime}

theorem int32_toInt_ofInt {n : ℤ} (h : FitsInt n) :
    int32 (BitVec.ofInt 64 n).toInt = n := by
  obtain ⟨hlow, hhigh⟩ := h
  rw [BitVec.toInt_ofInt, int32, Int.bmod_bmod_of_dvd ⟨2 ^ 32, by decide⟩]
  exact int32_eq hlow hhigh

/-- The fields of a date reach `calcDateValue` as they are. -/
theorem p_dateValue_dateParams (hfits : FitsInt (367 * t.year)) :
    p_dateValue now (dateParams t) =
      .value (calcDateValue t.year t.month t.day t.hour t.minute t.second) := by
  have hmonth := t.month_le
  have hday := day_le_31 t
  have hhour := t.hour_lt
  have hminute := t.minute_lt
  have hsecond := t.second_lt
  have hint : ∀ n : ℕ, n ≤ 60 → int32 (BitVec.ofInt 64 n).toInt = n := by
    intro n hn
    apply int32_toInt_ofInt
    unfold FitsInt
    omega
  have hyear : int32 (BitVec.ofInt 64 t.year).toInt = t.year := by
    apply int32_toInt_ofInt
    unfold FitsInt at hfits ⊢
    omega
  unfold dateParams p_dateValue
  simp only [List.map_cons, List.map_nil]
  rw [hyear, hint _ (by omega), hint _ (by omega), hint _ (by omega), hint _ (by omega),
    hint _ (by omega)]

/-- `date-list` takes the seconds of a date apart into its fields. -/
theorem p_dateList_epochSecond {timeValue : Word} (hvalue : timeValue.toInt = t.epochSecond)
    (hyear : FitsInt (t.year - 1900)) :
    ∃ days, p_dateList timeValue = .value (dateParams t ++ days) := by
  unfold p_dateList gmtime
  simp only [hvalue, DateTime.ofEpochSecond_epochSecond, if_pos hyear]
  refine ⟨[(t.yearDay : ℤ) + 1, if t.weekDay = 0 then 7 else t.weekDay].map (BitVec.ofInt 64),
    ?_⟩
  simp only [dateParams, List.map_cons, List.map_nil, List.cons_append, List.nil_append,
    Int.sub_add_cancel]

/-- For every date whose products fit an `int`, `date-value` gives its seconds and
`date-list` takes them back to the date exactly when 32 bits hold the seconds; among
these dates `date-value` is strictly increasing. -/
theorem dateValue_converts (now : Word) :
    (∀ t : DateTime, FitsInt (367 * t.year) → (Converts now t ↔ InTimeRange t)) ∧
    ∀ s t : DateTime, InTimeRange s → InTimeRange t → s.Before t →
      ∃ first last, p_dateValue now (dateParams s) = .value first ∧
        p_dateValue now (dateParams t) = .value last ∧ first.toInt < last.toInt := by
  constructor
  · intro t hfits
    constructor
    · rintro ⟨timeValue, hcall, hvalue, -⟩
      rw [p_dateValue_dateParams hfits] at hcall
      obtain rfl := Outcome.value.inj hcall
      exact (calcDateValue_eq_iff hfits).mp hvalue
    · intro h
      have hvalue := (calcDateValue_eq_iff hfits).mpr h
      have hyear : FitsInt (t.year - 1900) := by
        have hbounds := h.year_bounds
        unfold FitsInt
        omega
      exact ⟨_, p_dateValue_dateParams hfits, hvalue, p_dateList_epochSecond hvalue hyear⟩
  · intro s t hs ht hbefore
    refine ⟨_, _, p_dateValue_dateParams hs.fitsInt, p_dateValue_dateParams ht.fitsInt, ?_⟩
    rw [(calcDateValue_eq_iff hs.fitsInt).mpr hs, (calcDateValue_eq_iff ht.fitsInt).mpr ht]
    exact DateTime.epochSecond_lt hbefore

/-- 2002-02-28. -/
def february2002 : DateTime where
  year := 2002
  month := 2
  day := 28
  month_pos := by decide
  month_le := by decide
  day_pos := by decide
  day_le := by decide
  hour := 0
  minute := 0
  second := 0
  hour_lt := by decide
  minute_lt := by decide
  second_lt := by decide

/-- 2040-01-01. -/
def january2040 : DateTime where
  year := 2040
  month := 1
  day := 1
  month_pos := by decide
  month_le := by decide
  day_pos := by decide
  day_le := by decide
  hour := 0
  minute := 0
  second := 0
  hour_lt := by decide
  minute_lt := by decide
  second_lt := by decide

theorem dateValue_converts_2002 :
    (Converts 0 february2002 ↔ InTimeRange february2002) ∧
      ∃ first last, p_dateValue 0 (dateParams february2002) = .value first ∧
        p_dateValue 0 (dateParams { february2002 with second := 1, second_lt := by decide }) =
          .value last ∧ first.toInt < last.toInt :=
  ⟨(dateValue_converts 0).1 february2002 (by decide),
    (dateValue_converts 0).2 _ _ (by unfold InTimeRange; decide) (by unfold InTimeRange; decide)
      (.inr ⟨rfl, .inr ⟨rfl, .inr ⟨rfl, by decide⟩⟩⟩)⟩

/-- The seconds of 2040-01-01 do not fit 32 bits: `date-value` gives those of a day in
1903, and that day is what `date-list` shows. -/
theorem dateValue_wraps :
    FitsInt (367 * january2040.year) ∧ ¬ Converts 0 january2040 ∧
      p_dateValue 0 (dateParams january2040) = .value (-2085978496) ∧
      p_dateList (-2085978496) = .value [1903, 11, 25, 17, 31, 44, 329, 3] := by
  have hvalue : p_dateValue 0 (dateParams january2040) = .value (-2085978496) := by decide
  refine ⟨by decide, ?_, hvalue, by decide⟩
  rintro ⟨timeValue, hcall, hseconds, -⟩
  obtain rfl := Outcome.value.inj (hvalue.symm.trans hcall)
  exact absurd hseconds (by decide)

end RoundTrip

end NewLispNeo
