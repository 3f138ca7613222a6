import BlogSample.DeadlockDetector.Hooks
import BlogSample.Theory.Transition
import Mathlib.Data.Finset.Card

/-!
# The Threads of the Deadlock Detector

The threads that run the hooks. `pthread_mutex_lock` runs `lock_before`,
acquires the mutex and runs `lock_after`; `pthread_mutex_unlock` releases it
and runs `unlock_after`. Each of the five is one step, and a thread is always
in one of four phases between them.

Nothing is assumed of the threads but that they release what they hold: they
may lock in any order, in each other's way, and the mutex they hold already.
The memory of the detector is arbitrary at the start, apart from the two
counters `start_check` clears.

## Main definitions

* `Phase`, `State`, `Action`: The threads.
* `Setting`, `detector`: At most `MAX` threads and mutexes, and their runs.
* `Quiescent`: No hook is outstanding.
* `Disciplined`: What the phases and the holders have to do with each other.

## Theorems

* `step_eq_some`: What a step is.
* `reachable_disciplined`: What holds of the threads alone.
-/

namespace BlogSample

namespace DeadlockDetector

open Transition

/-- Where a thread is: outside, past `lock_before` of a mutex it has not got
    yet, past the acquire but not `lock_after`, past the release but not
    `unlock_after`. -/
inductive Phase where
  | idle
  | waiting (m : Nat)
  | acquired (m : Nat)
  | released (m : Nat)
  deriving DecidableEq

/-- The detector, the threads and the real holders of the mutexes. -/
structure State where
  tg : TaskGraph
  phase : Nat → Phase
  holder : Nat → Option Nat

/-- The steps of `pthread_mutex_lock` and `pthread_mutex_unlock`, each of a
    thread and a mutex. -/
inductive Action where
  | lockBefore (t m : Nat)
  | acquire (t m : Nat)
  | lockAfter (t m : Nat)
  | release (t m : Nat)
  | unlockAfter (t m : Nat)

/-- At most `MAX` threads and at most `MAX` mutexes, by their addresses. -/
structure Setting where
  threads : Finset Nat
  mutexes : Finset Nat
  threads_le : threads.card ≤ MAX
  mutexes_le : mutexes.card ≤ MAX
  mutexes_ne : 0 ∉ mutexes

/-- A step can be taken: the two functions are run in order, a mutex is
    acquired when it is free, and released by its holder. -/
def Enabled (w : Setting) (s : State) : Action → Prop
  | .lockBefore t m => t ∈ w.threads ∧ m ∈ w.mutexes ∧ s.phase t = .idle
  | .acquire t m => s.phase t = .waiting m ∧ s.holder m = none
  | .lockAfter t m => s.phase t = .acquired m
  | .release t m => s.phase t = .idle ∧ s.holder m = some t
  | .unlockAfter t m => s.phase t = .released m

instance (w : Setting) (s : State) : DecidablePred (Enabled w s)
  | .lockBefore _ _ => inferInstanceAs (Decidable (_ ∧ _ ∧ _))
  | .acquire _ _ => inferInstanceAs (Decidable (_ ∧ _))
  | .lockAfter _ _ => inferInstanceAs (Decidable (_ = _))
  | .release _ _ => inferInstanceAs (Decidable (_ ∧ _))
  | .unlockAfter _ _ => inferInstanceAs (Decidable (_ = _))

/-- What a step does to the detector. -/
def hook (tg : TaskGraph) : Action → Option TaskGraph
  | .lockBefore t m => tg.lockBefore t m
  | .acquire _ _ => some tg
  | .lockAfter t m => tg.lockAfter t m
  | .release _ _ => some tg
  | .unlockAfter t m => tg.unlockAfter t m

/-- What a step does to the threads and the mutexes. -/
def State.move (s : State) (tg : TaskGraph) : Action → State
  | .lockBefore t m => ⟨tg, Function.update s.phase t (.waiting m), s.holder⟩
  | .acquire t m =>
      ⟨tg, Function.update s.phase t (.acquired m), Function.update s.holder m (some t)⟩
  | .lockAfter t _ => ⟨tg, Function.update s.phase t .idle, s.holder⟩
  | .release t m =>
      ⟨tg, Function.update s.phase t (.released m), Function.update s.holder m none⟩
  | .unlockAfter t _ => ⟨tg, Function.update s.phase t .idle, s.holder⟩

/-- One step. -/
def step (w : Setting) (s : State) (a : Action) : Option State :=
  if Enabled w s a then (hook s.tg a).map (fun tg => s.move tg a) else none

/-- The counters are cleared, no thread has started and no mutex is held. -/
def Initial (s : State) : Prop :=
  s.tg.vertices.num = 0 ∧ s.tg.locks.lockidx = 0 ∧ (∀ t, s.phase t = .idle) ∧
    ∀ m, s.holder m = none

/-- The runs of the threads of a setting. -/
def detector (w : Setting) : System State Action :=
  System.ofFn Initial (step w)

/-- No thread is between the real acquire or release and its hook. -/
def Quiescent (s : State) : Prop :=
  ∀ t m, s.phase t ≠ .acquired m ∧ s.phase t ≠ .released m

theorem step_eq_some {w : Setting} {s s' : State} {a : Action} (h : step w s a = some s') :
    Enabled w s a ∧ ∃ tg, hook s.tg a = some tg ∧ s' = s.move tg a := by
  rw [step] at h
  by_cases ha : Enabled w s a
  · rw [if_pos ha, Option.map_eq_some_iff] at h
    rcases h with ⟨tg, htg, rfl⟩
    exact ⟨ha, tg, htg, rfl⟩
  · rw [if_neg ha] at h
    cases h

/-- A thread that is in a phase after a step was in it before, unless the
    step moved it there. -/
theorem phase_ne_of_update {f : Nat → Phase} {t x : Nat} {p q : Phase} (ht : f t ≠ p)
    (hx : Function.update f t q x ≠ p) : f x ≠ p := by
  by_cases hxt : x = t
  · exact hxt ▸ ht
  · rwa [Function.update_of_ne hxt] at hx

/-- The threads in a phase stay there, unless the step takes one out. -/
theorem exists_update_phase {f : Nat → Phase} {t : Nat} {p : Phase} (q : Phase) (ht : f t ≠ p)
    (h : ∃ x, f x = p) : ∃ x, Function.update f t q x = p := by
  rcases h with ⟨x, hx⟩
  have hxt : x ≠ t := by
    rintro rfl
    exact ht hx
  exact ⟨x, (Function.update_of_ne hxt q f).trans hx⟩

/-- What holds of the threads alone: they are the threads of the setting on
    its mutexes, and a thread that has just acquired a mutex holds it. -/
structure Disciplined (w : Setting) (s : State) : Prop where
  thread : ∀ t, s.phase t ≠ .idle → t ∈ w.threads
  mutex : ∀ t m, s.phase t = .waiting m ∨ s.phase t = .acquired m ∨ s.phase t = .released m →
    m ∈ w.mutexes
  held : ∀ m t, s.holder m = some t → m ∈ w.mutexes ∧ t ∈ w.threads
  acquired : ∀ t m, s.phase t = .acquired m → s.holder m = some t

theorem disciplined_initial (w : Setting) {s : State} (h : Initial s) : Disciplined w s where
  thread := fun t ht => absurd (h.2.2.1 t) ht
  mutex := fun t m hm => by
    rw [h.2.2.1 t] at hm
    rcases hm with hm | hm | hm <;> cases hm
  held := fun m t ht => by
    rw [h.2.2.2 m] at ht
    cases ht
  acquired := fun t m ht => by
    rw [h.2.2.1 t] at ht
    cases ht

/-- A thread moves to another phase and the holders change: what has to be
    looked at is the new phase, and the mutexes the other threads have just
    acquired. -/
theorem Disciplined.move {w : Setting} {s : State} (h : Disciplined w s) (tg : TaskGraph)
    {t : Nat} {q : Phase} {holder : Nat → Option Nat} (ht : t ∈ w.threads)
    (hm : ∀ m, q = .waiting m ∨ q = .acquired m ∨ q = .released m → m ∈ w.mutexes)
    (hheld : ∀ m x, holder m = some x → m ∈ w.mutexes ∧ x ∈ w.threads)
    (hacq : ∀ m, q = .acquired m → holder m = some t)
    (hkeep : ∀ x m, x ≠ t → s.phase x = .acquired m → holder m = some x) :
    Disciplined w ⟨tg, Function.update s.phase t q, holder⟩ := by
  refine ⟨fun x hx => ?_, fun x m hx => ?_, hheld, fun x m hx => ?_⟩
  · by_cases hxt : x = t
    · exact hxt ▸ ht
    · simp only [Function.update_of_ne hxt] at hx
      exact h.thread x hx
  · by_cases hxt : x = t
    · simp only [hxt, Function.update_self] at hx
      exact hm m hx
    · simp only [Function.update_of_ne hxt] at hx
      exact h.mutex x m hx
  · by_cases hxt : x = t
    · simp only [hxt, Function.update_self] at hx
      exact hxt ▸ hacq m hx
    · simp only [Function.update_of_ne hxt] at hx
      exact hkeep x m hxt hx

theorem disciplined_step {w : Setting} {s s' : State} {a : Action} (h : Disciplined w s)
    (hstep : step w s a = some s') : Disciplined w s' := by
  rcases step_eq_some hstep with ⟨hen, tg, -, rfl⟩
  have hkeep : ∀ t x m, x ≠ t → s.phase x = .acquired m → s.holder m = some x :=
    fun _ x m _ hx => h.acquired x m hx
  cases a with
  | lockBefore t m =>
      rcases hen with ⟨ht, hm, -⟩
      refine h.move tg ht ?_ h.held (fun k hk => by cases hk) (hkeep t)
      intro k hk
      rcases hk with hk | hk | hk
      · exact Phase.waiting.inj hk ▸ hm
      · cases hk
      · cases hk
  | acquire t m =>
      rcases hen with ⟨hw, hfree⟩
      have hm := h.mutex t m (Or.inl hw)
      have ht := h.thread t (by simp [hw])
      refine h.move tg ht ?_ ?_ ?_ ?_
      · intro k hk
        rcases hk with hk | hk | hk
        · cases hk
        · exact Phase.acquired.inj hk ▸ hm
        · cases hk
      · intro k x hx
        by_cases hkm : k = m
        · rw [hkm, Function.update_self] at hx
          rw [hkm, ← Option.some.inj hx]
          exact ⟨hm, ht⟩
        · rw [Function.update_of_ne hkm] at hx
          exact h.held k x hx
      · intro k hk
        rw [Phase.acquired.inj hk, Function.update_self]
      · intro x k _ hx
        -- The mutex was free, so it is none that another thread has acquired.
        have hkm : k ≠ m := by
          intro hkm
          rw [hkm] at hx
          rw [h.acquired x m hx] at hfree
          cases hfree
        rw [Function.update_of_ne hkm]
        exact h.acquired x k hx
  | lockAfter t m =>
      have ht := h.thread t (by simp [show s.phase t = .acquired m from hen])
      exact h.move tg ht (fun k hk => by simp at hk) h.held (fun k hk => by cases hk) (hkeep t)
  | release t m =>
      rcases hen with ⟨-, hheld⟩
      have hmt := h.held m t hheld
      refine h.move tg hmt.2 ?_ ?_ (fun k hk => by cases hk) ?_
      · intro k hk
        rcases hk with hk | hk | hk
        · cases hk
        · cases hk
        · exact Phase.released.inj hk ▸ hmt.1
      · intro k x hx
        by_cases hkm : k = m
        · rw [hkm, Function.update_self] at hx
          cases hx
        · rw [Function.update_of_ne hkm] at hx
          exact h.held k x hx
      · intro x k hxt hx
        -- The mutex was held by `t`, so no other thread has acquired it.
        have hkm : k ≠ m := by
          intro hkm
          rw [hkm] at hx
          rw [h.acquired x m hx] at hheld
          exact hxt (Option.some.inj hheld)
        rw [Function.update_of_ne hkm]
        exact h.acquired x k hx
  | unlockAfter t m =>
      have ht := h.thread t (by simp [show s.phase t = .released m from hen])
      exact h.move tg ht (fun k hk => by simp at hk) h.held (fun k hk => by cases hk) (hkeep t)

theorem reachable_disciplined {w : Setting} {s : State} (h : (detector w).Reachable s) :
    Disciplined w s :=
  h.invariant (Disciplined w) (fun _ hs => disciplined_initial w hs)
    (fun _ _ _ hs hst => disciplined_step hs hst)

/-- Only the threads of the setting need looking at. -/
theorem Disciplined.quiescent {w : Setting} {s : State} (h : Disciplined w s)
    (hset : ∀ t ∈ w.threads, s.phase t = .idle ∨ ∃ m, s.phase t = .waiting m) :
    Quiescent s := by
  intro t m
  have hcase : s.phase t = .idle ∨ ∃ m, s.phase t = .waiting m := by
    by_cases ht : s.phase t = .idle
    · exact Or.inl ht
    · exact hset t (h.thread t ht)
  rcases hcase with hp | ⟨k, hp⟩ <;> rw [hp] <;> exact ⟨nofun, nofun⟩

/-- The detector with its memory zeroed, before any thread has started. -/
def start : State where
  tg := ⟨⟨⟨fun _ => ⟨process 0, []⟩⟩, 0⟩, ⟨⟨fun _ => ⟨0, 0, 0⟩⟩, 0⟩⟩
  phase := fun _ => .idle
  holder := fun _ => none

/-- One thread with two mutexes. -/
def oneThread : Setting := ⟨{1}, {1, 2}, by decide, by decide, by decide⟩

/-- Two threads with one mutex. -/
def twoThreads : Setting := ⟨{1, 2}, {1}, by decide, by decide, by decide⟩

theorem card_oneTwo : ({1, 2} : Finset Nat).card ≤ MAX := by
  decide

theorem zero_notMem_oneTwo : 0 ∉ ({1, 2} : Finset Nat) := by
  rw [Finset.mem_insert, Finset.mem_singleton]
  omega

/-- Two threads with two mutexes. -/
def twoMutexes : Setting where
  threads := {1, 2}
  mutexes := {1, 2}
  threads_le := card_oneTwo
  mutexes_le := card_oneTwo
  mutexes_ne := zero_notMem_oneTwo

/-- The three steps of `pthread_mutex_lock`. -/
def lock (t m : Nat) : List Action := [.lockBefore t m, .acquire t m, .lockAfter t m]

/-- The two steps of `pthread_mutex_unlock`. -/
def unlock (t m : Nat) : List Action := [.release t m, .unlockAfter t m]

theorem initial_start : Initial start := ⟨rfl, rfl, fun _ => rfl, fun _ => rfl⟩

end DeadlockDetector

end BlogSample
