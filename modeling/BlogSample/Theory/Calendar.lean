import Mathlib.Data.Nat.Notation
import Mathlib.Order.Monotone.Basic

/-!
# The Gregorian Calendar

The calendar extended to all years from the first one on. Days are counted from
the first day of it. A year is given by how many years are over before it, so
that the first one is year `0` here.

A date in a year is given by the day of the year. The day of a common year with
the same month and day of the month is one less from March on in a leap year,
and is that of the 28th for the 29th of February. It is what stays the same
when years are added to a date. So the days between a date and the same date in
another year are 365 for each year and the leap days that are passed.

## Main definitions

* `isLeap`, `leapYears`, `daysOfYears`: Leap years, how many there are among the
  first years, and the days of these.
* `yearsBefore`, `dayOfYear`: The year of a day, and the day within it.
* `month`, `dayOfMonth`, `sameDate`: Dates, and a date in another year.
* `commonDay`, `leapDays`: The day in a common year, and the leap days so far.

## Theorems

* `daysOfYears_succ`: A year has 365 days or 366.
* `yearsBefore_spec`, `yearsBefore_eq_iff`: A day is in its year.
* `commonDay_sameDate`: The same date has the same day in a common year.
* `day_eq`: A day by its year, its day in a common year and the leap days so far.
-/

namespace BlogSample

namespace Calendar

/-! ### Years -/

/-- Whether a year is a leap year, by the years that are over at its end. -/
def isLeap (n : ℕ) : Bool :=
  n % 4 = 0 && (n % 100 ≠ 0 || n % 400 = 0)

/-- The leap years among the first years. -/
def leapYears (n : ℕ) : ℕ :=
  n / 4 - n / 100 + n / 400

/-- The days of the first years. -/
def daysOfYears (n : ℕ) : ℕ :=
  365 * n + leapYears n

/-- The days of a year. -/
def daysInYear (leap : Bool) : ℕ :=
  if leap then 366 else 365

theorem isLeap_iff (n : ℕ) : isLeap n = true ↔ n % 4 = 0 ∧ (n % 100 ≠ 0 ∨ n % 400 = 0) := by
  rw [isLeap, Bool.and_eq_true, Bool.or_eq_true, decide_eq_true_eq, decide_eq_true_eq,
    decide_eq_true_eq]

theorem leapYears_succ (n : ℕ) :
    leapYears (n + 1) = leapYears n + if isLeap (n + 1) then 1 else 0 := by
  have hle : n / 100 ≤ n / 4 := Nat.div_le_div_left (by decide) (by decide)
  unfold leapYears
  by_cases h : isLeap (n + 1) = true
  · rw [if_pos h]
    rw [isLeap_iff] at h
    have h4 : (n + 1) / 4 = n / 4 + 1 := by omega
    -- The year counts in the first quotient, or in all three.
    rcases h.2 with h100 | h400
    · have h100' : (n + 1) / 100 = n / 100 := by omega
      have h400' : (n + 1) / 400 = n / 400 := by omega
      omega
    · have h100' : (n + 1) / 100 = n / 100 + 1 := by omega
      have h400' : (n + 1) / 400 = n / 400 + 1 := by omega
      omega
  · rw [if_neg h]
    rw [isLeap_iff, not_and_or, not_or, not_not] at h
    -- It counts in none, or in the first two.
    rcases h with h4 | ⟨h100, h400⟩
    · have h4' : (n + 1) / 4 = n / 4 := by omega
      have h100' : (n + 1) / 100 = n / 100 := by omega
      have h400' : (n + 1) / 400 = n / 400 := by omega
      rw [h4', h100', h400', Nat.add_zero]
    · have h4' : (n + 1) / 4 = n / 4 + 1 := by omega
      have h100' : (n + 1) / 100 = n / 100 + 1 := by omega
      have h400' : (n + 1) / 400 = n / 400 := by omega
      omega

theorem daysOfYears_succ (n : ℕ) :
    daysOfYears (n + 1) = daysOfYears n + daysInYear (isLeap (n + 1)) := by
  rw [daysOfYears, daysOfYears, leapYears_succ, daysInYear]
  split <;> omega

theorem daysOfYears_strictMono : StrictMono daysOfYears := by
  refine strictMono_nat_of_lt_succ (fun n => ?_)
  rw [daysOfYears_succ, daysInYear]
  split <;> omega

/-- The years that are over before a day: by cycles of 400 years, of 100, of 4, and by years, where
    the last of these may be a day longer than the others. -/
def yearsBefore (day : ℕ) : ℕ :=
  let n400 := day / 146097
  let day := day % 146097
  let n100 := min (day / 36524) 3
  let day := day - n100 * 36524
  let n4 := day / 1461
  let day := day % 1461
  let n1 := min (day / 365) 3
  400 * n400 + 100 * n100 + 4 * n4 + n1

/-- The leap years, by cycles. -/
theorem leapYears_cycles {a b c e : ℕ} (hb : b ≤ 3) (hc : c ≤ 24) (he : e ≤ 3) :
    leapYears (400 * a + 100 * b + 4 * c + e) = 97 * a + 24 * b + c := by
  unfold leapYears
  omega

/-- The last year of a cycle of 4 years is a leap year, but for that of a cycle of 100 years which
    is not the last one of its 400. -/
theorem isLeap_cycles {a b c : ℕ} (hc : c ≤ 24) (hlast : c = 24 → b = 3) :
    isLeap (400 * a + 100 * b + 4 * c + 3 + 1) = true := by
  rw [isLeap_iff]
  refine ⟨by omega, ?_⟩
  by_cases h : c = 24
  · have hb3 := hlast h
    exact .inr (by omega)
  · exact .inl (by omega)

/-- A day is not before its year and not behind it. -/
theorem yearsBefore_spec (day : ℕ) :
    daysOfYears (yearsBefore day) ≤ day ∧ day < daysOfYears (yearsBefore day + 1) := by
  unfold yearsBefore
  dsimp only
  generalize ha : day / 146097 = a
  generalize hr : day % 146097 = r
  have hday : day = 146097 * a + r := by omega
  have hr' : r < 146097 := by omega
  generalize hb : min (r / 36524) 3 = b
  generalize hs : r - b * 36524 = s
  have hs' : r = 36524 * b + s ∧ b ≤ 3 ∧ s ≤ 36524 ∧ (s = 36524 → b = 3) := by omega
  generalize hc : s / 1461 = c
  generalize hu : s % 1461 = u
  have hu' : s = 1461 * c + u ∧ u < 1461 ∧ c ≤ 24 := by omega
  generalize he : min (u / 365) 3 = e
  have he' : e ≤ 3 ∧ 365 * e ≤ u ∧ u ≤ 365 * e + 365 ∧ (u = 365 * e + 365 → e = 3) := by omega
  rw [daysOfYears_succ, daysOfYears, leapYears_cycles hs'.2.1 hu'.2.2 he'.1]
  refine ⟨by omega, ?_⟩
  -- The last day of a cycle of 4 years is in a leap year.
  by_cases hlast : u = 365 * e + 365
  · have he3 : e = 3 := he'.2.2.2 hlast
    have hcycle : c = 24 → b = 3 := fun h => hs'.2.2.2 (by omega)
    rw [he3, isLeap_cycles hu'.2.2 hcycle, daysInYear, if_pos rfl]
    omega
  · rw [daysInYear]
    split <;> omega

theorem yearsBefore_eq_iff (day n : ℕ) :
    yearsBefore day = n ↔ daysOfYears n ≤ day ∧ day < daysOfYears (n + 1) := by
  constructor
  · rintro rfl
    exact yearsBefore_spec day
  · rintro ⟨hle, hlt⟩
    rcases yearsBefore_spec day with ⟨hle', hlt'⟩
    have h1 := daysOfYears_strictMono.lt_iff_lt.mp (hle.trans_lt hlt')
    have h2 := daysOfYears_strictMono.lt_iff_lt.mp (hle'.trans_lt hlt)
    omega

/-- The day within its year. -/
def dayOfYear (day : ℕ) : ℕ :=
  day - daysOfYears (yearsBefore day)

/-- Whether a day is in a leap year. -/
def inLeapYear (day : ℕ) : Bool :=
  isLeap (yearsBefore day + 1)

theorem daysOfYears_add_dayOfYear (day : ℕ) :
    daysOfYears (yearsBefore day) + dayOfYear day = day := by
  have h := (yearsBefore_spec day).1
  rw [dayOfYear]
  omega

theorem dayOfYear_lt (day : ℕ) : dayOfYear day < daysInYear (inLeapYear day) := by
  have h := yearsBefore_spec day
  rw [daysOfYears_succ] at h
  rw [dayOfYear, inLeapYear]
  omega

theorem yearsBefore_add {n j : ℕ} (h : j < daysInYear (isLeap (n + 1))) :
    yearsBefore (daysOfYears n + j) = n := by
  rw [yearsBefore_eq_iff, daysOfYears_succ]
  omega

/-! ### Months -/

/-- The days before each month, and those of the whole year. -/
def daysToMonth (leap : Bool) : List ℕ :=
  if leap then [0, 31, 60, 91, 121, 152, 182, 213, 244, 274, 305, 335, 366]
  else [0, 31, 59, 90, 120, 151, 181, 212, 243, 273, 304, 334, 365]

/-- The days before a month. -/
def daysBeforeMonth (leap : Bool) (month : ℕ) : ℕ :=
  (daysToMonth leap).getD (month - 1) 0

/-- The days of a month. -/
def daysInMonth (leap : Bool) (month : ℕ) : ℕ :=
  (daysToMonth leap).getD month 0 - (daysToMonth leap).getD (month - 1) 0

/-- The month of a day of the year. -/
def month (leap : Bool) (j : ℕ) : ℕ :=
  (daysToMonth leap).countP (fun d => d ≤ j)

/-- The day of its month of a day of the year. -/
def dayOfMonth (leap : Bool) (j : ℕ) : ℕ :=
  j - daysBeforeMonth leap (month leap j) + 1

/-- The day of another year with the same month and the same day of it, or with the last day of the
    month if it has no such day. -/
def sameDate (leap leap' : Bool) (j : ℕ) : ℕ :=
  daysBeforeMonth leap' (month leap j) +
    min (dayOfMonth leap j) (daysInMonth leap' (month leap j)) - 1

/-- The day of a common year for the same date. -/
def commonDay (leap : Bool) (j : ℕ) : ℕ :=
  if leap = true ∧ 59 ≤ j then j - 1 else j

theorem sameDate_self {leap : Bool} {j : ℕ} (hj : j < daysInYear leap) :
    sameDate leap leap j = j := by
  have hall : ∀ leap : Bool, ∀ j < 366, j < daysInYear leap → sameDate leap leap j = j := by
    decide +kernel
  refine hall leap j (hj.trans_le ?_) hj
  rw [daysInYear]
  split <;> omega

/-- The same date is in the other year, and has the same day in a common year. -/
theorem commonDay_sameDate {leap leap' : Bool} {j : ℕ} (hj : j < daysInYear leap) :
    sameDate leap leap' j < daysInYear leap' ∧
      commonDay leap' (sameDate leap leap' j) = commonDay leap j := by
  by_cases hleap : leap' = leap
  · rw [hleap, sameDate_self hj]
    exact ⟨hj, rfl⟩
  -- Of two different years one is a leap year.
  · have hall : ∀ leap : Bool, ∀ j < 366, j < daysInYear leap →
        sameDate leap (!leap) j < daysInYear (!leap) ∧
          commonDay (!leap) (sameDate leap (!leap) j) = commonDay leap j := by
      decide +kernel
    rw [Bool.eq_not.mpr hleap]
    refine hall leap j (hj.trans_le ?_) hj
    rw [daysInYear]
    split <;> omega

/-! ### Leap days -/

/-- The 29th of February in the years before a day, and in its year up to it. -/
def leapDays (day : ℕ) : ℕ :=
  leapYears (yearsBefore day) + if inLeapYear day = true ∧ 59 ≤ dayOfYear day then 1 else 0

/-- A day by its year, its day in a common year and the leap days so far. -/
theorem day_eq (day : ℕ) :
    day = 365 * yearsBefore day + commonDay (inLeapYear day) (dayOfYear day) + leapDays day := by
  have h := daysOfYears_add_dayOfYear day
  rw [daysOfYears] at h
  rw [commonDay, leapDays]
  by_cases hlate : inLeapYear day = true ∧ 59 ≤ dayOfYear day
  · rw [if_pos hlate, if_pos hlate]
    omega
  · rw [if_neg hlate, if_neg hlate]
    omega

end Calendar

end BlogSample
