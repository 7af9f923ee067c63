/-
The proleptic Gregorian calendar: dates, their day numbers counted from 1970-01-01,
and the date of a day number.
-/
import Mathlib.Algebra.BigOperators.Intervals
import Mathlib.Algebra.Order.BigOperators.Group.Finset
import Mathlib.Data.Nat.Find
import Mathlib.Tactic.IntervalCases

namespace Calendar

/-- Every fourth year is a leap year, but of the centuries only every fourth. -/
def IsLeap (year : ℤ) : Prop := year % 4 = 0 ∧ (year % 100 ≠ 0 ∨ year % 400 = 0)

instance : DecidablePred IsLeap := fun _ => inferInstanceAs (Decidable (_ ∧ _))

def daysInYear (year : ℤ) : ℕ := if IsLeap year then 366 else 365

def daysInMonth (year : ℤ) (month : ℕ) : ℕ :=
  if month = 2 then (if IsLeap year then 29 else 28)
  else if month = 4 ∨ month = 6 ∨ month = 9 ∨ month = 11 then 30 else 31

/-- The leap years up to a year, less those up to another one far back. -/
def leapsTo (year : ℤ) : ℤ := year / 4 - year / 100 + year / 400

/-- The day number of the first of January. -/
def daysToYear (year : ℤ) : ℤ := 365 * (year - 1970) + (leapsTo (year - 1) - leapsTo 1969)

/-- The days of a year before a month. -/
def daysToMonth (year : ℤ) (month : ℕ) : ℕ := ∑ m ∈ Finset.Ico 1 month, daysInMonth year m

/-- A date of the calendar. -/
structure Date where
  year : ℤ
  month : ℕ
  day : ℕ
  month_pos : 1 ≤ month
  month_le : month ≤ 12
  day_pos : 1 ≤ day
  day_le : day ≤ daysInMonth year month

/-- A date and a time of day, in seconds. -/
structure DateTime extends Date where
  hour : ℕ
  minute : ℕ
  second : ℕ
  hour_lt : hour < 24
  minute_lt : minute < 60
  second_lt : second < 60

/-- The day of the year, counted from 0. -/
def Date.yearDay (d : Date) : ℕ := daysToMonth d.year d.month + (d.day - 1)

/-- The days from 1970-01-01. -/
def Date.dayNumber (d : Date) : ℤ := daysToYear d.year + d.yearDay

/-- The day of the week, 0 for Sunday: 1970-01-01 was a Thursday. -/
def Date.weekDay (d : Date) : ℤ := (d.dayNumber + 4) % 7

def DateTime.secondOfDay (t : DateTime) : ℕ := t.hour * 3600 + t.minute * 60 + t.second

/-- The seconds from 1970-01-01 00:00:00. -/
def DateTime.epochSecond (t : DateTime) : ℤ := 86400 * t.dayNumber + t.secondOfDay

/-- One date is before another. -/
def Date.Before (a b : Date) : Prop :=
  a.year < b.year ∨ a.year = b.year ∧
    (a.month < b.month ∨ a.month = b.month ∧ a.day < b.day)

/-- One date and time is before another. -/
def DateTime.Before (a b : DateTime) : Prop :=
  a.toDate.Before b.toDate ∨ a.toDate = b.toDate ∧
    (a.hour < b.hour ∨ a.hour = b.hour ∧
      (a.minute < b.minute ∨ a.minute = b.minute ∧ a.second < b.second))

section Days

variable {year : ℤ} {month : ℕ}

/-- A quotient grows by one where the divisor divides. -/
theorem ediv_eq_pred_add {k : ℤ} (hk : 0 < k) (n : ℤ) :
    n / k = (n - 1) / k + if n % k = 0 then 1 else 0 := by
  have hsplit := Int.emod_add_mul_ediv n k
  have hpos := Int.emod_nonneg n (Int.ne_of_gt hk)
  have hlt := Int.emod_lt_of_pos n hk
  by_cases hzero : n % k = 0
  · have hpred : (n - 1) / k = n / k - 1 := by
      rw [Int.ediv_eq_iff_of_pos hk, Int.sub_mul, Int.one_mul, Int.mul_comm (n / k)]
      omega
    rw [if_pos hzero, hpred, Int.sub_add_cancel]
  · have hpred : (n - 1) / k = n / k := by
      rw [Int.ediv_eq_iff_of_pos hk, Int.mul_comm (n / k)]
      omega
    rw [if_neg hzero, hpred, Int.add_zero]

theorem leapsTo_eq (year : ℤ) :
    leapsTo year = leapsTo (year - 1) + if IsLeap year then 1 else 0 := by
  have hcentury : year % 100 = 0 → year % 4 = 0 := by omega
  have hfourth : year % 400 = 0 → year % 100 = 0 := by omega
  unfold leapsTo
  rw [ediv_eq_pred_add (by decide : (0 : ℤ) < 4) year,
    ediv_eq_pred_add (by decide : (0 : ℤ) < 100) year,
    ediv_eq_pred_add (by decide : (0 : ℤ) < 400) year]
  by_cases h400 : year % 400 = 0
  · have h100 := hfourth h400
    have hleap : IsLeap year := ⟨hcentury h100, .inr h400⟩
    rw [if_pos h400, if_pos h100, if_pos (hcentury h100), if_pos hleap]
    omega
  · by_cases h100 : year % 100 = 0
    · have hleap : ¬ IsLeap year := fun h => h.2.elim (fun hne => hne h100) h400
      rw [if_neg h400, if_pos h100, if_pos (hcentury h100), if_neg hleap]
      omega
    · by_cases h4 : year % 4 = 0
      · have hleap : IsLeap year := ⟨h4, .inl h100⟩
        rw [if_neg h400, if_neg h100, if_pos h4, if_pos hleap]
        omega
      · have hleap : ¬ IsLeap year := fun h => h4 h.1
        rw [if_neg h400, if_neg h100, if_neg h4, if_neg hleap]
        omega

theorem daysToYear_succ (year : ℤ) :
    daysToYear (year + 1) = daysToYear year + daysInYear year := by
  have hleap := leapsTo_eq year
  unfold daysToYear daysInYear
  rw [Int.add_sub_cancel]
  split_ifs at hleap ⊢ <;> push_cast <;> omega

theorem daysToYear_le_add (year : ℤ) (n : ℕ) : daysToYear year ≤ daysToYear (year + n) := by
  induction n with
  | zero => simp
  | succ n ih =>
      have hstep := daysToYear_succ (year + n)
      push_cast
      rw [← Int.add_assoc]
      omega

theorem daysToYear_mono {first last : ℤ} (h : first ≤ last) :
    daysToYear first ≤ daysToYear last := by
  obtain ⟨n, rfl⟩ := Int.le.dest h
  exact daysToYear_le_add first n

theorem daysToMonth_succ (year : ℤ) (h : 1 ≤ month) :
    daysToMonth year (month + 1) = daysToMonth year month + daysInMonth year month :=
  Finset.sum_Ico_succ_top h _

theorem daysToMonth_mono (year : ℤ) {first last : ℕ} (h : first ≤ last) :
    daysToMonth year first ≤ daysToMonth year last :=
  Finset.sum_le_sum_of_subset (Finset.Ico_subset_Ico le_rfl h)

theorem daysToMonth_last (year : ℤ) : daysToMonth year 13 = daysInYear year := by
  unfold daysToMonth daysInYear
  split_ifs with hleap <;> simp [Finset.sum_Ico_succ_top, daysInMonth, hleap]

/-- A day of a month comes before the days of the months behind it. -/
theorem Date.yearDay_lt_of_month (d : Date) {month : ℕ} (h : d.month < month) :
    d.yearDay < daysToMonth d.year month := by
  have hmonth := daysToMonth_succ d.year d.month_pos
  have hmono : daysToMonth d.year (d.month + 1) ≤ _ := daysToMonth_mono d.year h
  have hday := d.day_le
  have hpos := d.day_pos
  unfold Date.yearDay
  omega

theorem Date.yearDay_lt (d : Date) : d.yearDay < daysInYear d.year := by
  rw [← daysToMonth_last]
  exact d.yearDay_lt_of_month (Nat.lt_succ_of_le d.month_le)

end Days

section Order

variable {a b : Date} {s t : DateTime}

theorem Date.dayNumber_lt (h : a.Before b) : a.dayNumber < b.dayNumber := by
  unfold Date.dayNumber
  rcases h with hyear | ⟨hyear, hmonth | ⟨hmonth, hday⟩⟩
  · have hstep := daysToYear_succ a.year
    have hmono := daysToYear_mono (Int.add_one_le_iff.mpr hyear)
    have hlast := a.yearDay_lt
    omega
  · have hlast := a.yearDay_lt_of_month hmonth
    rw [hyear] at hlast ⊢
    unfold Date.yearDay at hlast ⊢
    omega
  · have hpos := a.day_pos
    unfold Date.yearDay
    rw [hyear, hmonth]
    omega

theorem DateTime.secondOfDay_lt (t : DateTime) : t.secondOfDay < 86400 := by
  have hhour := t.hour_lt
  have hminute := t.minute_lt
  have hsecond := t.second_lt
  unfold DateTime.secondOfDay
  omega

theorem DateTime.epochSecond_lt (h : s.Before t) : s.epochSecond < t.epochSecond := by
  unfold DateTime.epochSecond
  rcases h with hdate | ⟨hdate, htime⟩
  · have hday := Date.dayNumber_lt hdate
    have hlast := s.secondOfDay_lt
    omega
  · have hsecond := s.second_lt
    have hminute := s.minute_lt
    rw [hdate]
    unfold DateTime.secondOfDay
    omega

theorem Date.before_or_eq (a b : Date) : a.Before b ∨ a = b ∨ b.Before a := by
  rcases a with ⟨year, month, day, _, _, _, _⟩
  rcases b with ⟨year', month', day', _, _, _, _⟩
  simp only [Date.Before, Date.mk.injEq]
  omega

theorem DateTime.before_or_eq (s t : DateTime) : s.Before t ∨ s = t ∨ t.Before s := by
  rcases s with ⟨date, hour, minute, second, _, _, _⟩
  rcases t with ⟨date', hour', minute', second', _, _, _⟩
  simp only [DateTime.Before, DateTime.mk.injEq]
  rcases Date.before_or_eq date date' with hdate | rfl | hdate
  · exact .inl (.inl hdate)
  · simp only [true_and]
    omega
  · exact .inr (.inr (.inl hdate))

theorem DateTime.epochSecond_injective (h : s.epochSecond = t.epochSecond) : s = t := by
  rcases s.before_or_eq t with hlt | heq | hlt
  · exact absurd h (epochSecond_lt hlt).ne
  · exact heq
  · exact absurd h (epochSecond_lt hlt).ne'

end Order

/-- The year of a day number: the mean length of a year leads to it or next to it. -/
def yearOfDay (n : ℤ) : ℤ :=
  let year := 1970 + 400 * n / 146097
  if n < daysToYear year then year - 1
  else if daysToYear (year + 1) ≤ n then year + 1 else year

/-- The month of a day of the year. -/
def monthOfDay (year : ℤ) (yearDay : ℕ) : ℕ :=
  Nat.findGreatest (fun month => 1 ≤ month ∧ daysToMonth year month ≤ yearDay) 12

theorem yearOfDay_near (n : ℤ) :
    daysToYear (1970 + 400 * n / 146097 - 1) ≤ n ∧
      n < daysToYear (1970 + 400 * n / 146097 + 2) := by
  unfold daysToYear leapsTo
  omega

theorem yearOfDay_spec (n : ℤ) :
    daysToYear (yearOfDay n) ≤ n ∧ n < daysToYear (yearOfDay n + 1) := by
  obtain ⟨hlow, hhigh⟩ := yearOfDay_near n
  unfold yearOfDay
  dsimp only
  split_ifs with hbefore hbehind
  · exact ⟨hlow, by simpa using hbefore⟩
  · exact ⟨hbehind, by rwa [Int.add_assoc]⟩
  · exact ⟨not_lt.mp hbefore, not_le.mp hbehind⟩

section Month

variable {year : ℤ} {yearDay : ℕ}

theorem monthOfDay_spec (year : ℤ) (yearDay : ℕ) :
    1 ≤ monthOfDay year yearDay ∧ daysToMonth year (monthOfDay year yearDay) ≤ yearDay :=
  Nat.findGreatest_spec (P := fun month => 1 ≤ month ∧ daysToMonth year month ≤ yearDay)
    (Nat.le_of_ble_eq_true rfl : 1 ≤ 12) ⟨le_rfl, by simp [daysToMonth]⟩

theorem monthOfDay_le (year : ℤ) (yearDay : ℕ) : monthOfDay year yearDay ≤ 12 :=
  Nat.findGreatest_le 12

theorem lt_daysToMonth (h : yearDay < daysInYear year) :
    yearDay < daysToMonth year (monthOfDay year yearDay + 1) := by
  rcases (monthOfDay_le year yearDay).lt_or_eq with hlt | heq
  · have hnot := Nat.findGreatest_is_greatest (Nat.lt_succ_self _) (Nat.succ_le_of_lt hlt)
    unfold monthOfDay
    simpa using hnot
  · rwa [heq, daysToMonth_last]

end Month

/-- The day of the year of a day number, counted from 0. -/
def yearDayOfDay (n : ℤ) : ℕ := (n - daysToYear (yearOfDay n)).toNat

theorem yearDayOfDay_lt (n : ℤ) : yearDayOfDay n < daysInYear (yearOfDay n) := by
  have hstep := daysToYear_succ (yearOfDay n)
  have hyear := yearOfDay_spec n
  unfold yearDayOfDay
  omega

/-- The date of a day number. -/
def Date.ofDayNumber (n : ℤ) : Date where
  year := yearOfDay n
  month := monthOfDay (yearOfDay n) (yearDayOfDay n)
  day := yearDayOfDay n
    - daysToMonth (yearOfDay n) (monthOfDay (yearOfDay n) (yearDayOfDay n)) + 1
  month_pos := (monthOfDay_spec _ _).1
  month_le := monthOfDay_le _ _
  day_pos := Nat.le_add_left 1 _
  day_le := by
    have hnext := lt_daysToMonth (yearDayOfDay_lt n)
    rw [daysToMonth_succ _ (monthOfDay_spec _ _).1] at hnext
    have hmonth := (monthOfDay_spec (yearOfDay n) (yearDayOfDay n)).2
    omega

theorem Date.dayNumber_ofDayNumber (n : ℤ) : (Date.ofDayNumber n).dayNumber = n := by
  have hyear := (yearOfDay_spec n).1
  have hmonth := (monthOfDay_spec (yearOfDay n) (yearDayOfDay n)).2
  have hday : (yearDayOfDay n : ℤ) = n - daysToYear (yearOfDay n) :=
    Int.toNat_of_nonneg (by omega)
  unfold Date.dayNumber Date.yearDay Date.ofDayNumber
  dsimp only
  omega

/-- The date and time of a number of seconds. -/
def DateTime.ofEpochSecond (n : ℤ) : DateTime :=
  let second := (n % 86400).toNat
  { Date.ofDayNumber (n / 86400) with
    hour := second / 3600
    minute := second % 3600 / 60
    second := second % 60
    hour_lt := by omega
    minute_lt := by omega
    second_lt := by omega }

theorem DateTime.epochSecond_ofEpochSecond (n : ℤ) :
    (DateTime.ofEpochSecond n).epochSecond = n := by
  have hday := Date.dayNumber_ofDayNumber (n / 86400)
  unfold DateTime.epochSecond DateTime.secondOfDay DateTime.ofEpochSecond
  dsimp only
  omega

/-- A date is found again from its seconds. -/
theorem DateTime.ofEpochSecond_epochSecond (t : DateTime) :
    DateTime.ofEpochSecond t.epochSecond = t :=
  epochSecond_injective (epochSecond_ofEpochSecond _)

example : (DateTime.ofEpochSecond 1282479244).epochSecond = 1282479244 := by decide

end Calendar
