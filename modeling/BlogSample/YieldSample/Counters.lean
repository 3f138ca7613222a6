import BlogSample.Int32
import BlogSample.Theory.Fuel

/-!
# Even Counters

`Counter02` with its enumerable, and `Counter03.GetValue`. Both count the even
numbers up to an end. `GetValue` tests the end before it steps, so it never
steps beyond it. `MoveNext` first steps to the next even number and then
compares that with the end, so it has to step beyond the end to see it, and
beyond the last two values of `int` there is nothing but the smallest one. With
such an end the enumeration is never over.

## Main definitions

* `Counter02.moveNext`, `Counter02.enumerate`: The enumerator, and `foreach`.
* `Counter03.getValue`: The iterator method.
* `evens`: The even numbers up to an end.

## Theorems

* `Counter03.getValue_terminates`: The iterator yields the even numbers.
* `Counter02.enumerate_terminates`: So does the enumerator, below the last two ends.
* `Counter02.not_returns`: With one of those it never ends.
* `counters_agree_iff`: The ends with which the two counters agree.
-/

namespace BlogSample

namespace YieldSample

open DotNet Fuel

namespace Counter02

/-- `do { _current++; } while (_current % 2 != 0)`. -/
def step : ℕ → Int → Call Exn Int
  | 0, _ => outOfFuel
  | fuel + 1, current =>
      if (wrap (current + 1)).tmod 2 ≠ 0 then step fuel (wrap (current + 1))
      else pure (wrap (current + 1))

/-- `MoveNext()`: what it returns, and `_current` after it. -/
def moveNext (fuel : ℕ) (last current : Int) : Call Exn (Bool × Int) := do
  let current ← step fuel current
  pure (!decide (current > last), current)

/-- The rest of a `foreach`: what `Current` is, as long as `MoveNext` returns `true`. -/
def foreach : ℕ → Int → Int → Call Exn (List Int)
  | 0, _, _ => outOfFuel
  | fuel + 1, last, current => do
      let (go, current) ← moveNext fuel last current
      if go then
        let rest ← foreach fuel last current
        pure (current :: rest)
      else pure []

/-- `foreach (var item in new CounterEnumerable02(end))`, from the start that `Reset` sets. -/
def enumerate (fuel : ℕ) (last : Int) : Call Exn (List Int) :=
  foreach fuel last 0

end Counter02

namespace Counter03

/-- The rest of `GetValue(end)`, from the start of a round of its loop. -/
def rounds : ℕ → Int → Int → Call Exn (List Int)
  | 0, _, _ => outOfFuel
  | fuel + 1, last, current => do
      let yielded := if (wrap (current + 1)).tmod 2 = 0 then [wrap (current + 1)] else []
      let rest ← (if wrap (current + 1) < last then rounds fuel last (wrap (current + 1))
        else pure [])
      pure (yielded ++ rest)

/-- `GetValue(end)`, with all that it yields. -/
def getValue (fuel : ℕ) (last : Int) : Call Exn (List Int) :=
  rounds fuel last 0

end Counter03

/-! ### The even numbers -/

/-- The even numbers in a range. -/
def evensFrom (current last : Int) : List Int :=
  (upTo (current + 1) (last + 1)).filter (fun x => x % 2 = 0)

/-- The even numbers `2, 4, ...` up to an end. -/
def evens (last : Int) : List Int :=
  evensFrom 0 last

theorem evensFrom_of_le {current last : Int} (h : last ≤ current) :
    evensFrom current last = [] := by
  rw [evensFrom, upTo_of_le (by omega), List.filter_nil]

theorem evensFrom_of_even {current last : Int} (h : current < last)
    (heven : (current + 1) % 2 = 0) :
    evensFrom current last = (current + 1) :: evensFrom (current + 1) last := by
  rw [evensFrom, upTo_cons (by omega), List.filter_cons_of_pos (by rwa [decide_eq_true_eq]),
    evensFrom]

theorem evensFrom_of_odd {current last : Int} (hodd : (current + 1) % 2 ≠ 0) :
    evensFrom current last = evensFrom (current + 1) last := by
  by_cases h : current < last
  · rw [evensFrom, upTo_cons (by omega), List.filter_cons_of_neg (by rwa [decide_eq_true_eq]),
      evensFrom]
  · rw [evensFrom_of_le (by omega), evensFrom_of_le (by omega)]

theorem tmod_two_eq_zero_iff (x : Int) : x.tmod 2 = 0 ↔ x % 2 = 0 := by
  rw [← Int.dvd_iff_tmod_eq_zero, Int.dvd_iff_emod_eq_zero]

/-! ### Counter03 -/

/-- A round steps only if the end has not been reached, so it never overflows. -/
theorem Counter03.rounds_returns {last : Int} (hlast : InRange last) {current : Int}
    (hpos : 0 ≤ current) (hcurrent : current = 0 ∨ current < last) :
    ∀ fuel, (last - current).toNat < fuel →
      Returns (Counter03.rounds fuel last current) (evensFrom current last) := by
  induction hn : (last - current).toNat using Nat.strongRecOn generalizing current with
  | ind n ih =>
      have hwrap : wrap (current + 1) = current + 1 := by
        refine wrap_of_inRange ?_
        unfold InRange at hlast ⊢
        omega
      refine forall_lt_of_succ (fun fuel hfuel => ?_)
      have hrest : Returns
          (if current + 1 < last then Counter03.rounds fuel last (current + 1) else pure [])
          (evensFrom (current + 1) last) := by
        by_cases hgo : current + 1 < last
        · rw [if_pos hgo]
          exact ih _ (by omega) (by omega) (.inr hgo) rfl fuel (by omega)
        · rw [if_neg hgo, evensFrom_of_le (by omega)]
          exact .pure _
      -- The first number is odd, so what is yielded is not beyond the end.
      have hyield : (if (current + 1).tmod 2 = 0 then [current + 1] else []) ++
          evensFrom (current + 1) last = evensFrom current last := by
        by_cases heven : (current + 1) % 2 = 0
        · rw [if_pos ((tmod_two_eq_zero_iff _).mpr heven), evensFrom_of_even (by omega) heven]
          rfl
        · rw [if_neg (fun h => heven ((tmod_two_eq_zero_iff _).mp h)), evensFrom_of_odd heven]
          rfl
      rw [Counter03.rounds, hwrap, ← hyield]
      exact hrest.bind (.pure _)

/-- The iterator yields the even numbers up to its end, whatever that is. -/
theorem Counter03.getValue_terminates {last : Int} (hlast : InRange last) :
    Terminates (fun fuel => Counter03.getValue fuel last) (evens last) :=
  ⟨_, Counter03.rounds_returns hlast (Int.le_refl 0) (.inl rfl)⟩

/-! ### Counter02 -/

/-- From an even number, the next one is two steps away. -/
theorem Counter02.moveNext_returns {last current : Int} (heven : current % 2 = 0)
    (hpos : 0 ≤ current) (hcurrent : current < 2147483646) :
    ∀ fuel, 1 < fuel → Returns (Counter02.moveNext fuel last current)
      (!decide (current + 2 > last), current + 2) := by
  -- Neither of the two increments wraps.
  have hodd : wrap (current + 1) = current + 1 := by
    refine wrap_of_inRange ?_
    unfold InRange
    omega
  have hnext : wrap (current + 1 + 1) = current + 2 := by
    rw [Int.add_assoc]
    refine wrap_of_inRange ?_
    unfold InRange
    omega
  refine forall_lt_of_succ (fun fuel hfuel => ?_)
  rcases Nat.exists_eq_add_of_le' hfuel with ⟨fuel, rfl⟩
  have hstep : Returns (Counter02.step (fuel + 1 + 1) current) (current + 2) := by
    rw [Counter02.step, hodd, if_pos (by rw [ne_eq, tmod_two_eq_zero_iff]; omega), Counter02.step,
      hnext, if_neg (by rw [not_not, tmod_two_eq_zero_iff]; omega)]
    exact .pure _
  exact hstep.bind (.pure _)

theorem Counter02.foreach_returns {last : Int} (hlast : last < 2147483646) {current : Int}
    (heven : current % 2 = 0) (hpos : 0 ≤ current) (hcurrent : current = 0 ∨ current ≤ last) :
    ∀ fuel, (last - current).toNat + 2 < fuel →
      Returns (Counter02.foreach fuel last current) (evensFrom current last) := by
  induction hn : (last - current).toNat using Nat.strongRecOn generalizing current with
  | ind n ih =>
      refine forall_lt_of_succ (fun fuel hfuel => ?_)
      have hmove := @Counter02.moveNext_returns last _ heven hpos (by omega) fuel (by omega)
      rw [Counter02.foreach]
      refine hmove.bind ?_
      rw [evensFrom_of_odd (by omega)]
      by_cases hgo : current + 2 > last
      -- The next even number is beyond the end.
      · rw [evensFrom_of_le (by omega), decide_eq_true hgo]
        exact .pure _
      · have hnext : current + 1 + 1 = current + 2 := by omega
        rw [evensFrom_of_even (by omega) (by omega), hnext, decide_eq_false hgo]
        exact (ih _ (by omega) (by omega) (by omega) (.inr (by omega)) rfl fuel (by omega)).bind
          (.pure _)

/-- The enumerator yields the even numbers, if its end is not one of the last two values. -/
theorem Counter02.enumerate_terminates {last : Int} (hlast : last < 2147483646) :
    Terminates (fun fuel => Counter02.enumerate fuel last) (evens last) :=
  ⟨_, Counter02.foreach_returns hlast rfl (Int.le_refl 0) (.inl rfl)⟩

/-- The loop of `MoveNext` ends with an even number only. -/
theorem Counter02.step_even {fuel : ℕ} {current next : Int}
    (h : Returns (Counter02.step fuel current) next) : InRange next ∧ next % 2 = 0 := by
  induction fuel generalizing current with
  | zero => cases h
  | succ fuel ih =>
      rw [Counter02.step] at h
      by_cases hodd : (wrap (current + 1)).tmod 2 ≠ 0
      · rw [if_pos hodd] at h
        exact ih h
      · rw [if_neg hodd] at h
        cases h
        rw [ne_eq, not_not, tmod_two_eq_zero_iff] at hodd
        exact ⟨wrap_inRange _, hodd⟩

/-- No even number is beyond one of the last two values, so the enumeration never ends. -/
theorem Counter02.not_returns {last : Int} (hlast : 2147483646 ≤ last) (fuel : ℕ) (current : Int)
    (xs : List Int) : ¬Returns (Counter02.foreach fuel last current) xs := by
  induction fuel generalizing current xs with
  | zero => exact fun h => by cases h
  | succ fuel ih =>
      intro h
      rw [Counter02.foreach] at h
      rcases h.of_bind with ⟨⟨go, next⟩, hmove, hrest⟩
      rcases hmove.of_bind with ⟨next', hstep, hpair⟩
      cases hpair
      rcases Counter02.step_even hstep with ⟨hrange, heven⟩
      -- Wherever the step has come to, the end is not passed.
      have hgo : ¬next > last := by
        unfold InRange at hrange
        omega
      rw [decide_eq_false hgo] at hrest
      rcases Returns.of_bind (x := Counter02.foreach fuel last next) hrest with ⟨rest, hloop, _⟩
      exact ih next rest hloop

/-! ### Agreement -/

/-- Both counters yield the even numbers `2, 4, ...` up to an end, exactly if it is not one of the
    last two values of `int`. -/
theorem counters_agree_iff (last : Int) (hlast : InRange last) :
    (Terminates (fun fuel => Counter02.enumerate fuel last) (evens last) ∧
      Terminates (fun fuel => Counter03.getValue fuel last) (evens last)) ↔
      last < 2147483646 := by
  constructor
  · rintro ⟨⟨bound, hterm⟩, _⟩
    by_contra hge
    exact Counter02.not_returns (by omega) (bound + 1) 0 (evens last)
      (hterm (bound + 1) (Nat.lt_succ_self bound))
  · exact fun h => ⟨Counter02.enumerate_terminates h, Counter03.getValue_terminates hlast⟩

/-- The end of the sample. -/
theorem counters_agree_iff_sample :
    (Terminates (fun fuel => Counter02.enumerate fuel 100) (evens 100) ∧
      Terminates (fun fuel => Counter03.getValue fuel 100) (evens 100)) ↔
      (100 : Int) < 2147483646 :=
  counters_agree_iff 100 (by decide)

/-- With the largest `int` as its end, the enumeration does not end, and the iterator does. -/
theorem counters_disagree :
    ¬(∃ xs, Terminates (fun fuel => Counter02.enumerate fuel 2147483647) xs ∧
      Terminates (fun fuel => Counter03.getValue fuel 2147483647) xs) := by
  rintro ⟨xs, ⟨bound, hterm⟩, _⟩
  exact Counter02.not_returns (by decide) (bound + 1) 0 xs
    (hterm (bound + 1) (Nat.lt_succ_self bound))

end YieldSample

end BlogSample
