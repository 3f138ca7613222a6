import BlogSample.Theory.NestedLocks

/-!
# Two Locks in Either Order

`DeadlockObject` has two methods: `LockAThenLockB` takes the one lock and then
the other, `LockBThenLockA` takes them the other way round. `Main` calls each
once and waits for both.

Here any number of tasks call them. Two that each have their first lock wait
for each other for good; but short of that, whatever the other tasks do, all
of them can still end. The sleep between the locks makes the deadlock likely,
and changes nothing about which runs there are.

## Main definitions

* `lockAThenLockB`, `lockBThenLockA`: The two methods.
* `tasks`: The tasks that call them.
* `Embraced`: Two tasks wait for each other.

## Theorems

* `deadlocked_iff`: Only two tasks can wait for each other.
* `completes_iff_not_embraced`: When all tasks can still end, and which calls
  can get in each other's way.
-/

namespace BlogSample

namespace DeadLockSample

open Transition Threads LockOrder

/-- `_lockA` and `_lockB`. -/
inductive Lock
  | lockA
  | lockB
  deriving DecidableEq

/-- `LockAThenLockB`. -/
def lockAThenLockB : Nest Lock String where
  before := ["exec LockAThenLockB!!"]
  outer := .lockA
  inner := .lockB
  after := ["finish LockAThenLockB!!"]
  outer_ne_inner := nofun

/-- `LockBThenLockA`. -/
def lockBThenLockA : Nest Lock String where
  before := ["exec LockBThenLockA!!"]
  outer := .lockB
  inner := .lockA
  after := ["finish LockBThenLockA!!"]
  outer_ne_inner := nofun

/-- The methods of `DeadlockObject`. -/
inductive Method
  | lockAThenLockB
  | lockBThenLockA

/-- The locks of a method. A monitor may be entered again by its owner. -/
def Method.nest : Method → Nest Lock String
  | .lockAThenLockB => DeadLockSample.lockAThenLockB
  | .lockBThenLockA => DeadLockSample.lockBThenLockA

/-- Tasks that each call one method. -/
def tasks (calls : List Method) : System (State (Locks Lock String) (List (Op Lock String))) Nat :=
  system (run true) (start ((calls.map Method.nest).map Nest.program))

/-- Two tasks have their first lock and wait for the other's. -/
def Embraced (s : State (Locks Lock String) (List (Op Lock String))) : Prop :=
  lockAThenLockB.waiting ∈ s.threads ∧ lockBThenLockA.waiting ∈ s.threads

/-- The method that a task has called, from its locks. -/
theorem eq_of_inner {m : Method} {n : Nest Lock String} (h : n = m.nest) :
    (n.inner = .lockB → n = lockAThenLockB) ∧ (n.inner = .lockA → n = lockBThenLockA) := by
  subst h
  cases m with
  | lockAThenLockB => exact ⟨fun _ => rfl, nofun⟩
  | lockBThenLockA => exact ⟨nofun, fun _ => rfl⟩

theorem mem_nests {calls : List Method} {i : Nat} {n : Nest Lock String}
    (h : (calls.map Method.nest)[i]? = some n) : ∃ m ∈ calls, n = m.nest := by
  rcases List.mem_map.mp (List.mem_of_getElem? h) with ⟨m, hm, rfl⟩
  exact ⟨m, hm, rfl⟩

/-- Tasks that wait for each other are two, one of each method. -/
theorem deadlocked_iff {calls : List Method}
    {s : State (Locks Lock String) (List (Op Lock String))}
    (h : Nested (calls.map Method.nest) s) :
    Deadlocked (calls.map Method.nest) s ↔ Embraced s := by
  constructor
  · rintro ⟨C, hC⟩
    rcases hC.nonempty with ⟨i, hi⟩
    -- Whoever waits in the set, the task that has the lock waits there for the other one.
    rcases hC.next h hi with ⟨n, hn, hth, j, hj, n', hn', hth', hlock⟩
    have hmem := List.mem_of_getElem? hth
    have hmem' := List.mem_of_getElem? hth'
    rcases mem_nests hn with ⟨m, -, rfl⟩
    rcases mem_nests hn' with ⟨m', -, rfl⟩
    cases m with
    | lockAThenLockB =>
        cases m' with
        | lockAThenLockB => cases hlock
        | lockBThenLockA => exact ⟨hmem, hmem'⟩
    | lockBThenLockA =>
        cases m' with
        | lockAThenLockB => exact ⟨hmem', hmem⟩
        | lockBThenLockA => cases hlock
  · rintro ⟨hA, hB⟩
    rcases List.mem_iff_getElem?.mp hA with ⟨i, hi⟩
    rcases List.mem_iff_getElem?.mp hB with ⟨j, hj⟩
    rcases h.owner_of_waiting hi with ⟨c, hc⟩
    rcases h.owner_of_waiting hj with ⟨d, hd⟩
    rcases h.left i _ hi with ⟨n, hn, hat⟩
    rcases h.left j _ hj with ⟨n', hn', hat'⟩
    rcases mem_nests hn with ⟨m, -, hm⟩
    rcases mem_nests hn' with ⟨m', -, hm'⟩
    obtain rfl := (eq_of_inner hm).1 hat.locks_of_waiting.2
    obtain rfl := (eq_of_inner hm').2 hat'.locks_of_waiting.2
    refine ⟨{i, j}, ⟨i, .inl rfl⟩, fun k hk => ?_⟩
    rcases hk with rfl | rfl
    · exact ⟨_, hn, hi, j, .inr rfl, d, hd⟩
    · exact ⟨_, hn', hj, i, .inl rfl, c, hc⟩

/-- Two steps of a task that has not begun: it writes its line, and takes its
    first lock, if that is free. -/
theorem reachable_begin {calls : List Method}
    {s : State (Locks Lock String) (List (Op Lock String))} (h : (tasks calls).Reachable s)
    {i : Nat} (m : Method) (hi : s.threads[i]? = some m.nest.program)
    (hfree : s.shared.owner m.nest.outer = none) :
    ∃ output, (tasks calls).Reachable
      ⟨⟨Function.update s.shared.owner m.nest.outer (some (i, 1)), output⟩,
        s.threads.set i m.nest.waiting⟩ := by
  have hwrite : ∃ b, m.nest.program = .emit b :: m.nest.entering := by
    cases m with
    | lockAThenLockB => exact ⟨_, rfl⟩
    | lockBThenLockA => exact ⟨_, rfl⟩
  rcases hwrite with ⟨b, hb⟩
  rw [hb] at hi
  have hlt := (List.getElem?_eq_some_iff.mp hi).1
  let t : State (Locks Lock String) (List (Op Lock String)) :=
    ⟨⟨s.shared.owner, s.shared.output ++ [b]⟩, s.threads.set i m.nest.entering⟩
  have hone : Threads.step (run true) s i = some t := step_of hi rfl
  have hlock : run true i t.shared m.nest.entering =
      some (⟨Function.update s.shared.owner m.nest.outer (some (i, 1)), t.shared.output⟩,
        m.nest.waiting) := by
    simp only [Nest.entering, run, t, hfree]
  have htwo := step_of (List.getElem?_set_self hlt : t.threads[i]? = some m.nest.entering) hlock
  rw [List.set_set] at htwo
  exact ⟨t.shared.output, .step t i _ (.step s i t h hone) htwo⟩

/-- All tasks can still end exactly if no two of them wait for each other, and
    that can come about exactly if both methods are called. -/
theorem completes_iff_not_embraced (calls : List Method) :
    (∀ s, (tasks calls).Reachable s →
      ((∃ steps t, (tasks calls).Run s steps t ∧ ∀ ops ∈ t.threads, ops = []) ↔ ¬ Embraced s)) ∧
    ((∃ s, (tasks calls).Reachable s ∧ Embraced s) ↔
      Method.lockAThenLockB ∈ calls ∧ Method.lockBThenLockA ∈ calls) := by
  refine ⟨fun s hs => ?_, ?_, ?_⟩
  · rw [← deadlocked_iff (Nested.reachable hs)]
    exact completes_iff hs
  · rintro ⟨s, hs, hA, hB⟩
    have hnested : Nested (calls.map Method.nest) s := Nested.reachable hs
    rcases List.mem_iff_getElem?.mp hA with ⟨i, hi⟩
    rcases List.mem_iff_getElem?.mp hB with ⟨j, hj⟩
    rcases hnested.left i _ hi with ⟨n, hn, hat⟩
    rcases hnested.left j _ hj with ⟨n', hn', hat'⟩
    rcases mem_nests hn with ⟨m, hm, rfl⟩
    rcases mem_nests hn' with ⟨m', hm', rfl⟩
    constructor
    · cases m with
      | lockAThenLockB => exact hm
      | lockBThenLockA => cases hat.locks_of_waiting.2
    · cases m' with
      | lockAThenLockB => cases hat'.locks_of_waiting.2
      | lockBThenLockA => exact hm'
  · rintro ⟨hA, hB⟩
    rcases List.mem_iff_getElem?.mp hA with ⟨i, hi⟩
    rcases List.mem_iff_getElem?.mp hB with ⟨j, hj⟩
    have hij : i ≠ j := by
      rintro rfl
      rw [hi] at hj
      cases hj
    let s₀ : State (Locks Lock String) (List (Op Lock String)) :=
      ⟨⟨fun _ => none, []⟩, (calls.map Method.nest).map Nest.program⟩
    have hprogram : ∀ {k : Nat} {m : Method}, calls[k]? = some m →
        s₀.threads[k]? = some m.nest.program := by
      intro k m hk
      rw [List.getElem?_map, List.getElem?_map, hk]
      rfl
    -- One task takes its first lock, and the other one takes the other lock.
    have h₀ : (tasks calls).Reachable s₀ := .init s₀ rfl
    rcases reachable_begin h₀ .lockAThenLockB (hprogram hi) rfl with ⟨output, h₁⟩
    have hj₁ : (s₀.threads.set i lockAThenLockB.waiting)[j]? = some lockBThenLockA.program := by
      rw [List.getElem?_set_ne hij]
      exact hprogram hj
    rcases reachable_begin h₁ .lockBThenLockA hj₁ rfl with ⟨output', h₂⟩
    refine ⟨_, h₂, ?_, ?_⟩
    · refine List.mem_of_getElem? (i := i) ?_
      change ((s₀.threads.set i _).set j _)[i]? = _
      rw [List.getElem?_set_ne hij.symm]
      exact List.getElem?_set_self (List.getElem?_eq_some_iff.mp (hprogram hi)).1
    · refine List.mem_of_getElem? (i := j) ?_
      exact List.getElem?_set_self (List.getElem?_eq_some_iff.mp hj₁).1

end DeadLockSample

end BlogSample
