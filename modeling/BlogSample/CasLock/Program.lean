import BlogSample.MutiThreadSample.Program

/-!
# A Balance Behind a Lock and Behind Compare and Exchange

`Member.UpdateBalance` takes 10 off a balance behind a lock.
`Member.UpdateBalanceByInterlock` reads the balance and writes it by
`CompareExchange`, again and again until nothing came in between. `Main` has a
million tasks call the one and then the other from the same balance, so that
the times can be compared.

The balances can be compared too: they are the same, also where the `int`
overflows and the balance comes back to a value that a task has read before.
The loop has no bound of its own, but every failed attempt is paid for by a
call of another task, so no schedule keeps it going.

## Main definitions

* `withdraw`: What one call does to the balance.
* `updateBalance`, `updateBalanceByInterlock`: The two methods.
* `lockVersion`, `interlockedVersion`: The tasks that `Main` starts.

## Theorems

* `interlocked_balance`: The balance and the failed attempts at any time.
* `versions_agree`: Both versions end, and with the same balance.
-/

namespace BlogSample

namespace CasLock

open DotNet Transition Threads Updates MutiThreadSample

/-- What one call does to the balance. -/
def withdraw (balance : Int) : Int :=
  wrap (balance - 10)

/-- `UpdateBalance`. -/
def updateBalance : Program (Cell Int) (Place Int) :=
  locked withdraw

/-- `UpdateBalanceByInterlock`. -/
def updateBalanceByInterlock : Program (CasCell Int) (Attempt Int) :=
  cas withdraw

/-- Tasks that call `UpdateBalance`, each a number of times. -/
def lockVersion (balance : Int) (tasks calls : Nat) : System (State (Cell Int) (Place Int)) Nat :=
  system updateBalance (lockedStart balance tasks calls)

/-- Tasks that call `UpdateBalanceByInterlock`, each a number of times. -/
def interlockedVersion (balance : Int) (tasks calls : Nat) :
    System (State (CasCell Int) (Attempt Int)) Nat :=
  system updateBalanceByInterlock (casStart balance tasks calls)

/-- Several calls take off the multiple of 10, and wrap once. -/
theorem withdraw_iterate {balance : Int} (h : InRange balance) (k : Nat) :
    withdraw^[k] balance = wrap (balance - 10 * k) := by
  have hplus : withdraw = plus (-10) := rfl
  rw [hplus, plus_iterate (-10) h, Int.mul_neg, Int.mul_comm, Int.sub_eq_add_neg]

/-- At any time in any schedule, what is missing from the balance is what the
    completed calls have taken off, no attempt has failed that is not the
    price of a call of another task, and the run so far is bounded. -/
theorem interlocked_balance {balance : Int} (h : InRange balance) (tasks calls : Nat) :
    (∀ s, (interlockedVersion balance tasks calls).Reachable s →
      s.shared.value = wrap (balance - 10 * s.shared.completed) ∧
      s.shared.completed ≤ tasks * calls ∧
      s.shared.failed ≤ (tasks - 1) * s.shared.completed) ∧
    ∀ s₀ steps s, casStart balance tasks calls s₀ →
      (interlockedVersion balance tasks calls).Run s₀ steps s →
      steps.length ≤ 2 * tasks * (tasks * calls) := by
  refine ⟨fun s hs => ?_, fun s₀ steps s hinit hrun => cas_run_length hinit hrun⟩
  have hinv := Counts.reachable hs
  refine ⟨?_, ?_, hinv.failed_le⟩
  · rw [hinv.value, withdraw_iterate h]
  · rw [← hinv.rest]
    exact Nat.le_add_right _ _

/-- Two tasks that are about to call once each. -/
def twoTasks : State (CasCell Int) (Attempt Int) where
  shared := ⟨25, 0, 0⟩
  threads := [.idle 1, .idle 1]

/-- Two tasks read the same balance, and one of them has to try again. -/
theorem interlocked_balance_contended :
    ∃ s, (interlockedVersion 25 2 1).Reachable s ∧ s.shared.failed = 1 ∧
      s.shared.value = wrap (25 - 10 * s.shared.completed) := by
  have hs : (interlockedVersion 25 2 1).Reachable ⟨⟨15, 1, 1⟩, [.idle 0, .idle 1]⟩ :=
    System.reachable_of_exec [0, 1, 0, 1] twoTasks _ (.init twoTasks rfl) rfl
  exact ⟨_, hs, rfl, ((interlocked_balance (by decide) 2 1).1 _ hs).1⟩

/-- Where no task can go on, all have ended, and the balance is the same in both
    versions: all calls have been made. -/
theorem versions_agree {balance : Int} (h : InRange balance) (tasks calls : Nat) :
    (∀ s, (lockVersion balance tasks calls).Reachable s → Stuck updateBalance s →
      s.shared = ⟨wrap (balance - 10 * (tasks * calls : Nat)), false⟩ ∧
      ∀ th ∈ s.threads, th = .outside 0) ∧
    (∀ s, (interlockedVersion balance tasks calls).Reachable s →
      Stuck updateBalanceByInterlock s →
      s.shared.value = wrap (balance - 10 * (tasks * calls : Nat)) ∧
      s.shared.completed = tasks * calls ∧ ∀ th ∈ s.threads, th = .idle 0) ∧
    ∀ s₀ steps s, lockedStart balance tasks calls s₀ →
      (lockVersion balance tasks calls).Run s₀ steps s → steps.length ≤ 4 * (tasks * calls) := by
  refine ⟨fun s hs hstuck => ?_, fun s hs hstuck => ?_,
    fun s₀ steps s hinit hrun => locked_run_length hinit hrun⟩
  · rcases locked_stuck hs hstuck with ⟨hshared, hended⟩
    rw [hshared, withdraw_iterate h]
    exact ⟨rfl, hended⟩
  · rcases cas_stuck hs hstuck with ⟨hvalue, hcompleted⟩
    exact ⟨hvalue.trans (withdraw_iterate h _), hcompleted, cas_ended hstuck⟩

/-- Two tasks that call once each, with compare and exchange and with the
    lock. -/
theorem versions_agree_contended :
    (∃ s, (interlockedVersion 25 2 1).Reachable s ∧ Stuck updateBalanceByInterlock s ∧
      s.shared.failed = 1 ∧ s.shared.value = 5) ∧
    ∃ s, (lockVersion 25 2 1).Reachable s ∧ Stuck updateBalance s ∧ s.shared = ⟨5, false⟩ := by
  constructor
  · have hs : (interlockedVersion 25 2 1).Reachable ⟨⟨5, 2, 1⟩, [.idle 0, .idle 0]⟩ :=
      System.reachable_of_exec [0, 1, 0, 1, 1, 1] twoTasks _ (.init twoTasks rfl) rfl
    have hstuck : Stuck updateBalanceByInterlock
        (⟨⟨5, 2, 1⟩, [.idle 0, .idle 0]⟩ : State (CasCell Int) (Attempt Int)) := by
      refine stuck_iff.mpr (fun i th hth => ?_)
      rw [List.eq_of_mem_replicate (n := 2) (List.mem_of_getElem? hth)]
      rfl
    exact ⟨_, hs, hstuck, rfl, ((versions_agree (by decide) 2 1).2.1 _ hs hstuck).1⟩
  · have hs : (lockVersion 25 2 1).Reachable ⟨⟨5, false⟩, [.outside 0, .outside 0]⟩ :=
      System.reachable_of_exec [1, 1, 1, 1, 0, 0, 0, 0]
        (⟨⟨25, false⟩, [.outside 1, .outside 1]⟩ : State (Cell Int) (Place Int)) _
        (.init _ rfl) rfl
    have hstuck : Stuck updateBalance
        (⟨⟨5, false⟩, [.outside 0, .outside 0]⟩ : State (Cell Int) (Place Int)) := by
      refine stuck_iff.mpr (fun i th hth => ?_)
      rw [List.eq_of_mem_replicate (n := 2) (List.mem_of_getElem? hth)]
      rfl
    exact ⟨_, hs, hstuck, ((versions_agree (by decide) 2 1).1 _ hs hstuck).1⟩

end CasLock

end BlogSample
