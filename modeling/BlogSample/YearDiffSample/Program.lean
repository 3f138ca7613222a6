import BlogSample.DateTime
import Mathlib.Order.Bounds.Basic

/-!
# The Difference in Years

`GetDiffYear`, which takes the time between two dates as a date after the start
of the year `1` and returns how many years that is behind.

So the time is measured in the years from `1` on, with their leap years. The
years that have really passed have leap days of their own, and where the two
numbers of leap days are different, the time is a day or more off. What is
returned is the number of whole years if the time since the last anniversary,
with this difference, is still within a year.

## Main definitions

* `getDiffYear`: The function.
* `yearsWithin`: The years that do not take a date beyond another one.
* `wholeYears`: How many whole years there are between two dates.
* `LeapDaysFit`: The leap days on the way fit those of the first years.

## Theorems

* `getDiffYear_eq`: What is returned, by the days between the two dates.
* `isGreatest_wholeYears`: The whole years are the most that fit.
* `days_between`: The days between two dates, by the last anniversary.
* `getDiffYear_iff`: When the whole years are returned.
-/

namespace BlogSample

namespace YearDiffSample

open DotNet Calendar

/-- `startDate.GetDiffYear(endDate)`. -/
def getDiffYear (startDate endDate : DateTime) : Except Exn Int := do
  let zoneTime ← DateTime.ofDate 1 1 1
  let diffTime :=
    if endDate.ticks > startDate.ticks then endDate.subtract startDate
    else startDate.subtract endDate
  let t ← zoneTime.add diffTime
  pure (t.year - 1)

/-- The earlier one of two dates. -/
def earlier (a b : DateTime) : DateTime :=
  if b.ticks > a.ticks then a else b

/-- The later one of two dates. -/
def later (a b : DateTime) : DateTime :=
  if b.ticks > a.ticks then b else a

theorem earlier_le_later (a b : DateTime) : (earlier a b).ticks ≤ (later a b).ticks := by
  unfold earlier later
  split <;> omega

/-! ### Whole years -/

/-- The years that may be added to a date without passing another one. -/
def yearsWithin (s e : DateTime) : Set Int :=
  {k | ∃ t, s.addYears k = .ok t ∧ t.ticks ≤ e.ticks}

/-- The whole years between two dates: the difference of the years, or one less if the anniversary
    in the later year is still to come. -/
def wholeYears (s e : DateTime) : Int :=
  match s.addYears (e.year - s.year) with
  | .ok t => if t.ticks ≤ e.ticks then e.year - s.year else e.year - s.year - 1
  | .error _ => e.year - s.year

/-- The whole years are the most that may be added. -/
theorem isGreatest_wholeYears {s e : DateTime} (h : s.ticks ≤ e.ticks) :
    IsGreatest (yearsWithin s e) (wholeYears s e) ∧ 0 ≤ wholeYears s e := by
  have hs := s.year_le
  have he := e.year_le
  have hyears : s.year ≤ e.year := by
    by_contra hlt
    exact Nat.not_lt_of_le h (DateTime.lt_of_year_lt (Nat.not_le.mp hlt))
  rcases s.addYears_spec (e.year - s.year) (by omega) (by omega) with
    ⟨t, ht, hyear, htime, hcommon⟩
  -- An anniversary in a later year is passed.
  have hbound (k : Int) (hk : k ∈ yearsWithin s e) : k ≤ e.year - s.year := by
    rcases hk with ⟨t', ht', hle⟩
    have hyear' := DateTime.addYears_year ht'
    by_contra hgt
    exact Nat.not_lt_of_le hle (DateTime.lt_of_year_lt (by omega))
  by_cases hle : t.ticks ≤ e.ticks
  · have hpos : (0 : Int) ≤ e.year - s.year := by omega
    have hwhole : wholeYears s e = e.year - s.year := by
      rw [wholeYears, ht]
      exact if_pos hle
    rw [hwhole]
    exact ⟨⟨⟨t, ht, hle⟩, hbound⟩, hpos⟩
  -- In the same year, the anniversary is the date itself.
  · have hlt : s.year < e.year := by
      refine lt_of_le_of_ne hyears (fun heq => hle ?_)
      rw [heq, Int.sub_self, s.addYears_zero] at ht
      cases ht
      exact h
    rcases s.addYears_spec (e.year - s.year - 1) (by omega) (by omega) with
      ⟨t', ht', hyear', _⟩
    have hle' : t'.ticks ≤ e.ticks := (DateTime.lt_of_year_lt (by omega)).le
    have hpos : (0 : Int) ≤ e.year - s.year - 1 := by omega
    have hmost (k : Int) (hk : k ∈ yearsWithin s e) : k ≤ e.year - s.year - 1 := by
      have hk' := hbound k hk
      rcases hk with ⟨t'', ht'', hle''⟩
      by_contra hgt
      have heq : k = e.year - s.year := by omega
      rw [heq, ht] at ht''
      cases ht''
      exact hle hle''
    have hwhole : wholeYears s e = e.year - s.year - 1 := by
      rw [wholeYears, ht]
      exact if_neg hle
    rw [hwhole]
    exact ⟨⟨⟨t', ht', hle'⟩, hmost⟩, hpos⟩

/-! ### What is returned -/

/-- What is returned is the year of the time between the two dates. -/
theorem getDiffYear_eq (a b : DateTime) :
    getDiffYear a b =
      .ok (yearsBefore (((later a b).ticks - (earlier a b).ticks) / ticksPerDay) : ℕ) := by
  have hspan : (if b.ticks > a.ticks then b.subtract a else a.subtract b) =
      (((later a b).ticks - (earlier a b).ticks : ℕ) : Int) := by
    unfold later earlier DateTime.subtract
    split <;> omega
  have hlt : (later a b).ticks - (earlier a b).ticks < ticksOfAll :=
    (Nat.sub_le _ _).trans_lt (later a b).lt
  generalize (later a b).ticks - (earlier a b).ticks = n at hspan hlt
  have hadd := DateTime.ofDate_add hlt
  have hcall : getDiffYear a b = (do
      let t ← (do
        let zoneTime ← DateTime.ofDate 1 1 1
        zoneTime.add n)
      pure (t.year - 1)) := by
    rw [getDiffYear, hspan, bind_assoc]
  rw [hcall, hadd]
  change Except.ok (((yearsBefore (n / ticksPerDay) + 1 : ℕ) : Int) - 1) = _
  rw [Int.natCast_succ, Int.add_sub_cancel]

/-- The leap days on the way from a date to its last anniversary before another one, with the days
    that have passed since then, are not less than the leap days of as many years from the first
    one on, and are less than a year beyond them. -/
def LeapDaysFit (s e : DateTime) : Prop :=
  ∃ t, s.addYears (wholeYears s e) = .ok t ∧
    (leapYears (wholeYears s e).toNat : Int) ≤
      leapDays t.date - leapDays s.date + ((e.ticks - t.ticks : ℕ) / ticksPerDay : ℕ) ∧
    leapDays t.date - leapDays s.date + (((e.ticks - t.ticks : ℕ) / ticksPerDay : ℕ) : Int) <
      leapYears ((wholeYears s e).toNat + 1) + 365

/-- From a date to an anniversary there are 365 days for each year and the leap days. -/
theorem days_to_anniversary {s t : DateTime} {k : Int} (hk : 0 ≤ k) (ht : s.addYears k = .ok t) :
    (t.date : Int) = s.date + 365 * k + (leapDays t.date - leapDays s.date) ∧
      t.timeOfDay = s.timeOfDay := by
  have hyear := DateTime.addYears_year ht
  have hrange := t.year_le
  have hs := s.year_le
  rcases s.addYears_spec k (by omega) (by omega) with ⟨t', ht', _, htime, hcommon⟩
  rw [ht] at ht'
  cases ht'
  -- The two dates have the same day in a common year.
  have hday := day_eq t.date
  have hday' := day_eq s.date
  rw [hcommon] at hday
  rw [DateTime.year, DateTime.year] at hyear
  generalize commonDay (inLeapYear s.date) (dayOfYear s.date) = c at hday hday'
  generalize yearsBefore t.date = n at hday hyear
  generalize yearsBefore s.date = m at hday' hyear
  generalize leapDays t.date = l at hday ⊢
  generalize leapDays s.date = l' at hday' ⊢
  exact ⟨by omega, htime⟩

/-- The days between two dates: those of the years up to the last anniversary, and those since. -/
theorem days_between {s e t : DateTime} {k : Int} (hk : 0 ≤ k) (ht : s.addYears k = .ok t)
    (hs : s.ticks ≤ e.ticks) (hle : t.ticks ≤ e.ticks) :
    (((e.ticks - s.ticks) / ticksPerDay : ℕ) : Int) =
      365 * k + (leapDays t.date - leapDays s.date) +
        ((e.ticks - t.ticks) / ticksPerDay : ℕ) := by
  rcases days_to_anniversary hk ht with ⟨hdate, htime⟩
  have hticks := t.date_mul_add_timeOfDay
  have hticks' := s.date_mul_add_timeOfDay
  -- Up to the anniversary there are whole days.
  have hwhole : ((e.ticks - s.ticks : ℕ) : Int) =
      (e.ticks - t.ticks : ℕ) + (t.date - s.date) * ticksPerDay := by
    rw [Int.sub_mul]
    omega
  rw [Int.natCast_ediv, hwhole, Int.add_mul_ediv_right _ _ (by decide), ← Int.natCast_ediv, hdate]
  omega

/-- The whole years between two dates are returned exactly if the leap days on the way fit those of
    the first years. -/
theorem getDiffYear_iff (a b : DateTime) :
    (∃ k, getDiffYear a b = .ok k ∧ IsGreatest (yearsWithin (earlier a b) (later a b)) k) ↔
      LeapDaysFit (earlier a b) (later a b) := by
  rcases isGreatest_wholeYears (earlier_le_later a b) with ⟨hgreatest, hpos⟩
  rcases hgreatest.1 with ⟨t, ht, hle⟩
  have hdays := days_between hpos ht (earlier_le_later a b) hle
  have hspec := yearsBefore_eq_iff (((later a b).ticks - (earlier a b).ticks) / ticksPerDay)
    (wholeYears (earlier a b) (later a b)).toNat
  rw [daysOfYears, daysOfYears] at hspec
  -- The condition says that the days between the dates fit the whole years from the year 1 on.
  have hcond : LeapDaysFit (earlier a b) (later a b) ↔
      yearsBefore (((later a b).ticks - (earlier a b).ticks) / ticksPerDay) =
        (wholeYears (earlier a b) (later a b)).toNat := by
    rw [hspec]
    constructor
    · rintro ⟨t', ht', hlow, hhigh⟩
      rw [ht] at ht'
      cases ht'
      omega
    · rintro ⟨hlow, hhigh⟩
      exact ⟨t, ht, by omega, by omega⟩
  rw [hcond, getDiffYear_eq]
  constructor
  · rintro ⟨k, hk, hmost⟩
    cases hk
    have hsame := hmost.unique hgreatest
    omega
  · intro hyears
    refine ⟨_, rfl, ?_⟩
    rw [hyears, Int.toNat_of_nonneg hpos]
    exact hgreatest

/-- The 1st of January and the 31st of December of the year 2000. -/
def firstOf2000 : DateTime := ⟨630822816000000000, by decide⟩

def lastOf2000 : DateTime := ⟨631138176000000000, by decide⟩

example : DateTime.ofDate 2000 1 1 = .ok firstOf2000 := rfl

example : DateTime.ofDate 2000 12 31 = .ok lastOf2000 := rfl

/-- Within a leap year one year is returned, before it is over. -/
theorem getDiffYear_early :
    ¬∃ k, getDiffYear firstOf2000 lastOf2000 = .ok k ∧
      IsGreatest (yearsWithin (earlier firstOf2000 lastOf2000) (later firstOf2000 lastOf2000))
        k := by
  have hearlier : earlier firstOf2000 lastOf2000 = firstOf2000 := if_pos (by decide)
  have hlater : later firstOf2000 lastOf2000 = lastOf2000 := if_pos (by decide)
  have hyear : firstOf2000.year = 2000 := by decide
  have hyear' : lastOf2000.year = 2000 := by decide
  have hone : yearsBefore ((lastOf2000.ticks - firstOf2000.ticks) / ticksPerDay) = 1 := by decide
  rintro ⟨k, hk, ⟨t, ht, hle⟩, _⟩
  rw [getDiffYear_eq, hearlier, hlater, hone] at hk
  cases hk
  rw [hearlier] at ht
  rw [hlater] at hle
  -- The first anniversary is in the year 2001.
  have hnext := DateTime.addYears_year ht
  exact Nat.not_lt_of_le hle (DateTime.lt_of_year_lt (by omega))

end YearDiffSample

end BlogSample
