import BlogSample.Theory.NestedLocks

/-!
# The Threads of the Deadlock Detector's Program

The four routines of `main.c`, whose deadlock the detector is there to find.
Each locks a mutex and, inside, the one that the next routine locks first. A
mutex is not reentrant.

The four of them wait for each other if each has its first mutex, and there is
no other deadlock: short of that all four can still end.

`main` also calls `init_hook`, which looks up the functions that the hooks
wrap, and `start_check`, whose thread ends a deadlock with a signal to the
process. Neither is here: this is what the four do by themselves.

## Main definitions

* `routine`: What the four routines have in common.
* `threadRountine1`, `threadRountine2`, `threadRountine3`, `threadRountine4`:
  The routines.
* `threads`: The threads that `main` starts.

## Theorems

* `ring`: Each routine locks inside what the next one locks first.
* `joins_or_all_wait`: When the threads can still be joined.
-/

namespace BlogSample

namespace DeadlockDetector

namespace Main

open Transition Threads LockOrder

/-- The four mutexes. -/
inductive Mutex
  | mutex1
  | mutex2
  | mutex3
  | mutex4
  deriving DecidableEq

/-- A routine prints its name and its thread's id, and locks one mutex inside
    another. -/
def routine (text : String) (outer inner : Mutex) (h : outer ≠ inner) (selfid : Nat) :
    Nest Mutex String where
  before := [text ++ toString selfid ++ " \n"]
  outer := outer
  inner := inner
  after := []
  outer_ne_inner := h

/-- `thread_rountine_1`. -/
def threadRountine1 : Nat → Nest Mutex String :=
  routine "thread_routine 1 : " .mutex1 .mutex2 nofun

/-- `thread_rountine_2`. -/
def threadRountine2 : Nat → Nest Mutex String :=
  routine "thread_routine 2 : " .mutex2 .mutex3 nofun

/-- `thread_rountine_3`. -/
def threadRountine3 : Nat → Nest Mutex String :=
  routine "thread_routine 3 : " .mutex3 .mutex4 nofun

/-- `thread_rountine_4`. -/
def threadRountine4 : Nat → Nest Mutex String :=
  routine "thread_routine 4 : " .mutex4 .mutex1 nofun

/-- The routines of the threads that `main` starts. -/
def routines (tid1 tid2 tid3 tid4 : Nat) : List (Nest Mutex String) :=
  [threadRountine1 tid1, threadRountine2 tid2, threadRountine3 tid3, threadRountine4 tid4]

/-- The threads that `main` starts. -/
def threads (tid1 tid2 tid3 tid4 : Nat) :
    System (Threads.State (Locks Mutex String) (List (Op Mutex String))) Nat :=
  system (LockOrder.run false) (LockOrder.start ((routines tid1 tid2 tid3 tid4).map Nest.program))

/-- Each routine locks inside what the next one locks first. -/
theorem ring (tid1 tid2 tid3 tid4 : Nat) : Ring (routines tid1 tid2 tid3 tid4) := by
  intro i j n n' hn hn'
  have hi : i < 4 := (List.getElem?_eq_some_iff.mp hn).1
  have hj : j < 4 := (List.getElem?_eq_some_iff.mp hn').1
  have hinner : [Mutex.mutex2, .mutex3, .mutex4, .mutex1][i]? = some n.inner := by
    rw [← Option.map_some, ← hn, ← List.getElem?_map]
    rfl
  have houter : [Mutex.mutex1, .mutex2, .mutex3, .mutex4][j]? = some n'.outer := by
    rw [← Option.map_some, ← hn', ← List.getElem?_map]
    rfl
  have hring : ∀ i < 4, ∀ j < 4, [Mutex.mutex2, .mutex3, .mutex4, .mutex1][i]? =
      [Mutex.mutex1, .mutex2, .mutex3, .mutex4][j]? ↔ j = (i + 1) % 4 := by decide
  have hnext := hring i hi j hj
  rw [hinner, houter, Option.some.injEq] at hnext
  exact hnext

/-- All four threads have their first mutex and wait for the second. -/
def AllWait (tid1 tid2 tid3 tid4 : Nat)
    (s : Threads.State (Locks Mutex String) (List (Op Mutex String))) : Prop :=
  s.threads = (routines tid1 tid2 tid3 tid4).map Nest.waiting

/-- The threads can all still be joined exactly if not all four of them wait,
    which can come about. No schedule goes on for more than 20 steps, and where
    it stops, either all have ended or all wait. -/
theorem joins_or_all_wait (tid1 tid2 tid3 tid4 : Nat) :
    (∀ s, (threads tid1 tid2 tid3 tid4).Reachable s →
      ((∃ steps t, (threads tid1 tid2 tid3 tid4).Run s steps t ∧ ∀ ops ∈ t.threads, ops = []) ↔
        ¬ AllWait tid1 tid2 tid3 tid4 s) ∧
      (Stuck (LockOrder.run false) s →
        (∀ ops ∈ s.threads, ops = []) ∨ AllWait tid1 tid2 tid3 tid4 s)) ∧
    (∃ s, (threads tid1 tid2 tid3 tid4).Reachable s ∧ AllWait tid1 tid2 tid3 tid4 s) ∧
    ∀ s₀ steps s, (threads tid1 tid2 tid3 tid4).init s₀ →
      (threads tid1 tid2 tid3 tid4).Run s₀ steps s → steps.length ≤ 20 := by
  refine ⟨fun s hs => ?_, ?_, fun s₀ steps s hinit hrun => ?_⟩
  · have hlength : s.threads.length = 4 :=
      reachable_length (fun s (hs : LockOrder.start _ s) => by rw [hs]; rfl) hs
    have hall : Deadlocked (routines tid1 tid2 tid3 tid4) s ↔ AllWait tid1 tid2 tid3 tid4 s := by
      rw [(ring tid1 tid2 tid3 tid4).deadlocked_iff (Nested.reachable hs) hlength]
      exact and_iff_right (List.cons_ne_nil _ _)
    rw [← hall]
    exact ⟨completes_iff hs, stuck_done hs⟩
  -- Each thread in turn prints its line and takes its first mutex.
  · let s₀ : Threads.State (Locks Mutex String) (List (Op Mutex String)) :=
      ⟨⟨fun _ => none, []⟩, (routines tid1 tid2 tid3 tid4).map Nest.program⟩
    exact ⟨_, System.reachable_of_exec [0, 0, 1, 1, 2, 2, 3, 3] s₀ _ (.init s₀ rfl) rfl, rfl⟩
  · have hlen := run_length hinit hrun
    have htotal : tally List.length ((routines tid1 tid2 tid3 tid4).map Nest.program) = 20 := rfl
    omega

end Main

end DeadlockDetector

end BlogSample
