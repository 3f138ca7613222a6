import BlogSample.DotNet
import BlogSample.Theory.Calendar

/-!
# The .NET `DateTime`

A date with a time is a number of ticks since the start of the year `1`, up to
the end of the year `9999`. A difference is a number of ticks as well. What
would leave the range throws.

## Main definitions

* `DateTime`, `DateTime.ofTicks`: The ticks, within their range.
* `DateTime.year`, `DateTime.date`, ...: The parts of a date.
* `DateTime.ofDate`, `DateTime.add`, `DateTime.subtract`, `DateTime.addYears`:
  The constructor and the operations.

## Theorems

* `DateTime.year_le`: A date is within the years from `1` to `9999`.
* `DateTime.lt_of_year_lt`: An earlier year is earlier.
* `DateTime.addYears_spec`: What `AddYears` returns, within these years.
* `DateTime.addYears_zero`, `DateTime.addYears_year`: No years, and the year of what it returns.
-/

namespace BlogSample

namespace DotNet

open Calendar

/-- `TimeSpan.TicksPerDay`. -/
def ticksPerDay : ℕ := 864000000000

/-- The ticks of all the years up to `9999`. -/
def ticksOfAll : ℕ := 3155378976000000000

/-- A date and a time of day, as ticks. -/
structure DateTime where
  ticks : ℕ
  lt : ticks < ticksOfAll

namespace DateTime

theorem toNat_lt {ticks : Int} (h : 0 ≤ ticks ∧ ticks < ticksOfAll) :
    ticks.toNat < ticksOfAll := by
  omega

/-- `new DateTime(ticks)`. -/
def ofTicks (ticks : Int) : Except Exn DateTime :=
  if h : 0 ≤ ticks ∧ ticks < ticksOfAll then pure ⟨ticks.toNat, toNat_lt h⟩
  else throw .argumentOutOfRange

/-- The days that are over. -/
def date (t : DateTime) : ℕ :=
  t.ticks / ticksPerDay

/-- The ticks of the day that are over. -/
def timeOfDay (t : DateTime) : ℕ :=
  t.ticks % ticksPerDay

/-- `Year`. -/
def year (t : DateTime) : ℕ :=
  yearsBefore t.date + 1

/-- `new DateTime(year, month, day)`. -/
def ofDate (year month day : ℕ) : Except Exn DateTime :=
  if 1 ≤ year ∧ year ≤ 9999 ∧ 1 ≤ month ∧ month ≤ 12 ∧ 1 ≤ day ∧
      day ≤ daysInMonth (isLeap year) month then
    ofTicks ((daysOfYears (year - 1) + daysBeforeMonth (isLeap year) month + (day - 1) : ℕ) *
      ticksPerDay)
  else throw .argumentOutOfRange

/-- `t + span`. -/
def add (t : DateTime) (span : Int) : Except Exn DateTime :=
  ofTicks (t.ticks + span)

/-- `t - t'`. -/
def subtract (t t' : DateTime) : Int :=
  t.ticks - t'.ticks

/-- `AddYears(value)`: the same month and day of the month, or the last day of February where there
    is no 29th, at the same time of day. -/
def addYears (t : DateTime) (value : Int) : Except Exn DateTime :=
  if value < -10000 ∨ 10000 < value then throw .argumentOutOfRange
  else if t.year + value < 1 ∨ 9999 < t.year + value then throw .argumentOutOfRange
  else
    let years := (t.year + value - 1).toNat
    let day := daysOfYears years +
      sameDate (inLeapYear t.date) (isLeap (years + 1)) (dayOfYear t.date)
    ofTicks ((day * ticksPerDay + t.timeOfDay : ℕ) : Int)

theorem ofTicks_of_lt {n : ℕ} (h : n < ticksOfAll) : ofTicks n = .ok ⟨n, h⟩ := by
  rw [ofTicks, dif_pos ⟨Int.natCast_nonneg n, Int.ofNat_lt.mpr h⟩]
  rfl

/-- A number of ticks after the start of the first year. -/
theorem ofDate_add {n : ℕ} (h : n < ticksOfAll) :
    (do
      let t ← ofDate 1 1 1
      t.add n) = .ok ⟨n, h⟩ := by
  have hstart : ofDate 1 1 1 = .ok ⟨0, by decide⟩ := by
    rw [ofDate, if_pos (by decide)]
    exact ofTicks_of_lt (n := 0) (by decide)
  have hadd : add ⟨0, by decide⟩ n = .ok ⟨n, h⟩ := by
    rw [add, Int.ofNat_zero, Int.zero_add, ofTicks_of_lt h]
  rw [hstart, ok_bind, hadd]

theorem date_mul_add_timeOfDay (t : DateTime) : t.date * ticksPerDay + t.timeOfDay = t.ticks :=
  Nat.div_add_mod' t.ticks ticksPerDay

theorem timeOfDay_lt (t : DateTime) : t.timeOfDay < ticksPerDay :=
  Nat.mod_lt t.ticks (by decide)

/-- The ticks are those of the days of all the years. -/
theorem ticksOfAll_eq : ticksOfAll = daysOfYears 9999 * ticksPerDay := by
  decide

theorem year_le (t : DateTime) : 1 ≤ t.year ∧ t.year ≤ 9999 := by
  refine ⟨Nat.succ_pos _, ?_⟩
  have hlt : t.date < daysOfYears 9999 := by
    rw [date]
    exact Nat.div_lt_of_lt_mul (by rw [Nat.mul_comm, ← ticksOfAll_eq]; exact t.lt)
  have hyears := daysOfYears_strictMono.lt_iff_lt.mp ((yearsBefore_spec t.date).1.trans_lt hlt)
  rw [year]
  omega

/-- A date in an earlier year is earlier. -/
theorem lt_of_year_lt {t t' : DateTime} (h : t.year < t'.year) : t.ticks < t'.ticks := by
  rw [year, year] at h
  have hday : t.date < t'.date :=
    ((yearsBefore_spec t.date).2.trans_le
      (daysOfYears_strictMono.monotone (show yearsBefore t.date + 1 ≤ yearsBefore t'.date by
        omega))).trans_le (yearsBefore_spec t'.date).1
  have hticks := t.date_mul_add_timeOfDay
  have hticks' := t'.date_mul_add_timeOfDay
  have htime := t.timeOfDay_lt
  have hmul := Nat.mul_le_mul_right ticksPerDay (Nat.succ_le_of_lt hday)
  rw [Nat.succ_mul] at hmul
  omega

/-- Within the range of years, there is the same date in the other year. -/
theorem addYears_spec (t : DateTime) (value : Int) (hlo : 1 ≤ t.year + value)
    (hhi : t.year + value ≤ 9999) :
    ∃ t', addYears t value = .ok t' ∧ t'.year = t.year + value ∧ t'.timeOfDay = t.timeOfDay ∧
      commonDay (inLeapYear t'.date) (dayOfYear t'.date) =
        commonDay (inLeapYear t.date) (dayOfYear t.date) := by
  have hyear := t.year_le
  generalize hn : (t.year + value - 1).toNat = n
  have hn9999 : n + 1 ≤ 9999 := by omega
  rcases @commonDay_sameDate _ (isLeap (n + 1)) _ (dayOfYear_lt t.date) with ⟨hj, hcommon⟩
  generalize hday : sameDate (inLeapYear t.date) (isLeap (n + 1)) (dayOfYear t.date) = j
    at hj hcommon
  have htime := t.timeOfDay_lt
  -- The day is one of the year, so it is in range.
  have hlt : (daysOfYears n + j) * ticksPerDay + t.timeOfDay < ticksOfAll := by
    have hnext : daysOfYears n + j + 1 ≤ daysOfYears 9999 := by
      have hsucc := daysOfYears_succ n
      have hmono := daysOfYears_strictMono.monotone hn9999
      omega
    have hmul := Nat.mul_le_mul_right ticksPerDay hnext
    rw [Nat.succ_mul] at hmul
    rw [ticksOfAll_eq]
    omega
  have hdate : date ⟨_, hlt⟩ = daysOfYears n + j := by
    change ((daysOfYears n + j) * ticksPerDay + t.timeOfDay) / ticksPerDay = _
    rw [Nat.mul_comm, Nat.mul_add_div (by decide), Nat.div_eq_of_lt htime, Nat.add_zero]
  have hyears : yearsBefore (date ⟨_, hlt⟩) = n := by rw [hdate, yearsBefore_add hj]
  refine ⟨⟨_, hlt⟩, ?_, ?_, ?_, ?_⟩
  · rw [addYears, if_neg (by omega), if_neg (by omega)]
    dsimp only
    rw [hn, hday, ofTicks_of_lt hlt]
  · rw [year, hyears]
    omega
  · change ((daysOfYears n + j) * ticksPerDay + t.timeOfDay) % ticksPerDay = _
    rw [Nat.mul_comm, Nat.mul_add_mod, Nat.mod_eq_of_lt htime]
  · rw [inLeapYear, dayOfYear, hyears, hdate, Nat.add_sub_cancel_left, hcommon]

/-- No years are added. -/
theorem addYears_zero (t : DateTime) : addYears t 0 = .ok t := by
  have hyear := t.year_le
  have hyears : ((t.year : Int) + 0 - 1).toNat = yearsBefore t.date := by
    rw [year]
    omega
  rw [addYears, if_neg (by omega), if_neg (by omega)]
  dsimp only
  rw [hyears]
  change ofTicks (((daysOfYears (yearsBefore t.date) +
    sameDate (inLeapYear t.date) (inLeapYear t.date) (dayOfYear t.date)) * ticksPerDay +
      t.timeOfDay : ℕ) : Int) = _
  rw [sameDate_self (dayOfYear_lt t.date), daysOfYears_add_dayOfYear, date_mul_add_timeOfDay,
    ofTicks_of_lt t.lt]

theorem addYears_year {t t' : DateTime} {value : Int} (h : addYears t value = .ok t') :
    t'.year = t.year + value := by
  by_cases hvalue : value < -10000 ∨ 10000 < value
  · rw [addYears, if_pos hvalue] at h
    cases h
  · by_cases hrange : t.year + value < 1 ∨ 9999 < t.year + value
    · rw [addYears, if_neg hvalue, if_pos hrange] at h
      cases h
    · rcases t.addYears_spec value (by omega) (by omega) with ⟨t'', ht'', hyear, _⟩
      rw [h] at ht''
      cases ht''
      exact hyear

end DateTime

end DotNet

end BlogSample
