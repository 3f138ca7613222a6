import BlogSample.Int32
import BlogSample.Theory.Updates

/-!
# Counters that Several Threads Increase

`MutiThreadSample` increases one static `int` from ten tasks in three ways, and
`VolatileSample` adds to a field in the first of them. Each `++val` or
`balance += 10` of the first way is a read and a write, and other threads may
come in between. What the sample wants to show is that the sum is then too
small; what it can be is exactly `addOutcomes_iff`: any multiple from two up.
The other two ways lose nothing.

## Main definitions

* `plus`: Adding to an `int`.
* `add`, `lockObjectAdd`, `threadSafeAdd`: The three ways.
* `addBalance`: The field of `VolatileSample`.
* `multiThreadAdd`, `multiThreadLockObject`, `multiThreadInterlocked`: The
  tasks that `Main` starts.

## Theorems

* `plus_iterate`: Adding several times.
* `outcomes_iff`: What is left of unprotected additions.
* `unprotected_outcomes`: The same for the two samples.
* `protected_total`: The other two ways add up everything.
-/

namespace BlogSample

namespace MutiThreadSample

open DotNet Transition Threads Updates

/-- `x += d`. -/
def plus (d x : Int) : Int :=
  wrap (x + d)

/-- `Add`: `++val`, a number of times. -/
def add : Program Int (Updater Int) :=
  plain (plus 1)

/-- `LockObjectAdd`: `lock (_rootsync) { ++val; }`, a number of times. -/
def lockObjectAdd : Program (Cell Int) (Place Int) :=
  locked (plus 1)

/-- `ThreadSafeAdd`: `Interlocked.Increment(ref val)`, a number of times. -/
def threadSafeAdd : Program Int Nat :=
  atomic (plus 1)

/-- `AddBalance`: `balance += 10`, a number of times. -/
def addBalance : Program Int (Updater Int) :=
  plain (plus 10)

/-- `MultiThreadAdd`: `val` is set to 0, and tasks run `Add(times)`. -/
def multiThreadAdd (tasks times : Nat) : System (State Int (Updater Int)) Nat :=
  system add (plainStart 0 tasks times)

/-- `MultiThreadLockObject`. -/
def multiThreadLockObject (tasks times : Nat) : System (State (Cell Int) (Place Int)) Nat :=
  system lockObjectAdd (lockedStart 0 tasks times)

/-- `MultiThreadInterlocked`. -/
def multiThreadInterlocked (tasks times : Nat) : System (State Int Nat) Nat :=
  system threadSafeAdd (atomicStart 0 tasks times)

/-- The tasks of `VolatileSample`, which call `AddBalance` on a fresh member. -/
def volatileMain (tasks times : Nat) : System (State Int (Updater Int)) Nat :=
  system addBalance (plainStart 0 tasks times)

theorem wrap_add_wrap (x d : Int) : wrap (wrap x + d) = wrap (x + d) := by
  unfold wrap
  omega

/-- Adding several times adds the multiple, and wraps once. -/
theorem plus_iterate (d : Int) {x : Int} (hx : InRange x) (k : Nat) :
    (plus d)^[k] x = wrap (x + k * d) := by
  induction k with
  | zero =>
      rw [Function.iterate_zero, id_eq, Int.natCast_zero, Int.zero_mul, Int.add_zero,
        wrap_of_inRange hx]
  | succ k ih =>
      rw [Function.iterate_succ_apply', ih, plus, wrap_add_wrap, Int.natCast_succ, Int.add_mul,
        Int.one_mul, Int.add_assoc]

/-- What is left of additions without protection: the sum of any number of them
    from two up. -/
theorem outcomes_iff {d : Int} (hd : 0 < d) {tasks times : Nat} (htasks : 2 ≤ tasks)
    (htimes : 2 ≤ times) (hfits : InRange ((tasks * times : Nat) * d)) (z : Int) :
    (∃ s, (system (plain (plus d)) (plainStart 0 tasks times)).Reachable s ∧ PlainDone s ∧
      s.shared = z) ↔ ∃ k : Nat, 2 ≤ k ∧ k ≤ tasks * times ∧ z = k * d := by
  have hiter : ∀ k : Nat, k ≤ tasks * times → (plus d)^[k] 0 = k * d := by
    intro k hk
    have hle : (k : Int) * d ≤ (tasks * times : Nat) * d :=
      Int.mul_le_mul_of_nonneg_right (Int.ofNat_le.mpr hk) (Int.le_of_lt hd)
    have hpos : 0 ≤ (k : Int) * d := Int.mul_nonneg (Int.natCast_nonneg k) (Int.le_of_lt hd)
    unfold InRange at hfits
    rw [plus_iterate d (by decide), Int.zero_add, wrap_of_inRange ⟨by omega, by omega⟩]
  rw [plain_outcomes_iff (plus d) 0 htasks htimes z]
  constructor
  · rintro ⟨k, hk, hle, rfl⟩
    exact ⟨k, hk, hle, hiter k hle⟩
  · rintro ⟨k, hk, hle, rfl⟩
    exact ⟨k, hk, hle, (hiter k hle).symm⟩

/-- What `val` and `balance` may be when all tasks have ended, if the sum of all
    additions is an `int`: the sum of any number of them from two up. -/
theorem unprotected_outcomes {tasks times : Nat} (htasks : 2 ≤ tasks) (htimes : 2 ≤ times)
    (z : Int) :
    (tasks * times ≤ 2147483647 →
      ((∃ s, (multiThreadAdd tasks times).Reachable s ∧ PlainDone s ∧ s.shared = z) ↔
        2 ≤ z ∧ z ≤ (tasks * times : Nat))) ∧
    ((tasks * times) * 10 ≤ 2147483647 →
      ((∃ s, (volatileMain tasks times).Reachable s ∧ PlainDone s ∧ s.shared = z) ↔
        ∃ k : Nat, 2 ≤ k ∧ k ≤ tasks * times ∧ z = k * 10)) := by
  refine ⟨fun hfits => ?_, fun hfits => ?_⟩
  · have hadd := outcomes_iff (d := 1) (by decide) htasks htimes
      (by rw [Int.mul_one]; exact ⟨by omega, by omega⟩) z
    refine hadd.trans ⟨?_, ?_⟩
    · rintro ⟨k, hk, hle, rfl⟩
      omega
    · rintro ⟨htwo, hle⟩
      exact ⟨z.toNat, by omega, by omega, by omega⟩
  · exact outcomes_iff (d := 10) (by decide) htasks htimes ⟨by omega, by omega⟩ z

/-- Ten tasks that make a hundred additions each may leave the sum of two. -/
theorem unprotected_outcomes_two :
    (∃ s, (multiThreadAdd 10 100).Reachable s ∧ PlainDone s ∧ s.shared = 2) ∧
    ∃ s, (volatileMain 10 100).Reachable s ∧ PlainDone s ∧ s.shared = 20 := by
  constructor
  · refine ((@unprotected_outcomes 10 100 (by decide) (by decide) 2).1 (by decide)).mpr ?_
    decide
  · refine ((@unprotected_outcomes 10 100 (by decide) (by decide) 20).2 (by decide)).mpr ?_
    exact ⟨2, by decide, by decide, rfl⟩

/-- With the lock, and with the interlocked increment, every run ends, and where
    no task can go on `val` counts all increments. -/
theorem protected_total (tasks times : Nat) :
    (∀ s₀ steps s, lockedStart 0 tasks times s₀ →
      (multiThreadLockObject tasks times).Run s₀ steps s → steps.length ≤ 4 * (tasks * times)) ∧
    (∀ s, (multiThreadLockObject tasks times).Reachable s → Stuck lockObjectAdd s →
      s.shared = ⟨wrap (tasks * times : Nat), false⟩) ∧
    (∀ s₀ steps s, atomicStart 0 tasks times s₀ →
      (multiThreadInterlocked tasks times).Run s₀ steps s → steps.length ≤ tasks * times) ∧
    ∀ s, (multiThreadInterlocked tasks times).Reachable s → Stuck threadSafeAdd s →
      s.shared = wrap (tasks * times : Nat) := by
  have htotal : (plus 1)^[tasks * times] 0 = wrap (tasks * times : Nat) := by
    rw [plus_iterate 1 (by decide), Int.zero_add, Int.mul_one]
  refine ⟨fun s₀ steps s hinit h => locked_run_length hinit h, fun s h hstuck => ?_,
    fun s₀ steps s hinit h => atomic_run_length hinit h, fun s h hstuck => ?_⟩
  · rw [(locked_stuck h hstuck).1, htotal]
  · rw [atomic_stuck h hstuck, htotal]

end MutiThreadSample

end BlogSample
