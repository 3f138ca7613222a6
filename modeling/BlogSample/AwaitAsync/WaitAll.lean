import BlogSample.AwaitAsync.Continuations
import Mathlib.Logic.Function.Basic

/-!
# A Call of `WaitAll`

`WaitAll` makes a task, registers the same continuation on every task of its
list, and returns. Each run of the continuation decrements a shared counter,
and the one that reads zero calls `SetResult`. For an empty list the call is
made at once.

All of this is user code of the thread machine, so a call is a machine, and
where its own code has got to: the rest of the loop, the counter, the tasks
that `ContinueWith` has returned, and what each run of the continuation does
next. Everything else the machine does, on any thread, is up to other code.
That code completes the listed tasks whenever it likes. It registers nothing
on them and leaves `SetResult` of the new task to `WaitAll`.

## Main definitions

* `Call`: The thread, the list and the new task.
* `Point`: What a run of the continuation does next.
* `Progress`: The machine, and where the code of the call is.
* `Apart`: A step of other code.
* `Moves`: What a step does.
* `step`: A step of the machine, of the loop, or of a continuation.
* `system`: The runs that begin with the new task.

## Theorems

* `step_moves`: What a step does, case by case.
* `step_of_callSetResult`: A call of `SetResult` is a step of the machine.
-/

namespace BlogSample

namespace AwaitAsync

open Transition

namespace WaitAll

/-- A call of `WaitAll`: the thread that makes it, the list, and the task that
    it returns. -/
structure Call where
  caller : Nat
  tasks : List Nat
  t : Nat

/-- What a run of the continuation does next. -/
inductive Point
  | decrement
  | setResult
  | returns
  deriving DecidableEq

/-- The machine, the part of the list that is still to be registered on, the
    counter, the tasks that `ContinueWith` returned, each after the task it was
    called on, where the runs of the continuation are, and how often
    `SetResult` has been called. -/
structure Progress where
  machine : State
  todo : List Nat
  remaining : Int
  inner : List (Nat × Nat)
  point : Nat → Point
  calls : Nat

namespace Progress

/-- Has the call not got to its `return` yet? -/
def inCall (p : Progress) (c : Call) : Bool :=
  p.todo ≠ [] || c.tasks == [] && p.calls == 0

/-- The run of the continuation that the thread is in, if it is in none of the
    calls the run makes. -/
def running (p : Progress) (th : Nat) : Option Nat :=
  match p.machine.threads[th]? with
  | some (.action u :: _) => if u ∈ p.inner.map Prod.snd then some u else none
  | _ => none

end Progress

/-- A step of other code: the thread is in neither the loop nor a run of the
    continuation, and nothing is registered on a listed task. -/
def apart (c : Call) (p : Progress) (label : Nat × Act) : Bool :=
  !(label.1 == c.caller && p.inCall c) && p.running label.1 == none &&
    !(label.2.registersOn.any (· ∈ c.tasks)) && label.2 != .setResult c.t

/-- The run of a user's action that a step begins. -/
def entered (s : State) (label : Nat × Act) : Option Nat :=
  match label.2, s.threads[label.1]? with
  | .invoke, some (.invoke (.action u .user) :: _) => some u
  | _, _ => none

/-- Where the runs of the continuation are after a step of other code: one that
    begins is at its first statement. -/
def Progress.enter (p : Progress) (label : Nat × Act) : Nat → Point :=
  match entered p.machine label with
  | some u => Function.update p.point u .decrement
  | none => p.point

/-- The thread calls `SetResult` on the task `t`, whatever has been called
    before. -/
def callSetResult (s : State) (th t : Nat) : Option State :=
  match s.threads[th]? with
  | some (frame :: rest) =>
      some { s.setThread th (.setResult t :: frame :: rest) with
        shared := { s.shared with pledged := s.shared.pledged.erase t } }
  | _ => none

/-- What happens next: a step of other code, a round of the loop, `SetResult`
    of the new task because the list is empty, or a statement of the
    continuation. -/
inductive Label
  | other (label : Nat × Act)
  | register
  | empty
  | decrement (th : Nat)
  | setResult (th : Nat)
  | returns (th : Nat)

/-- A step of the machine, of the loop, or of a run of the continuation. -/
def step (c : Call) (p : Progress) : Label → Option Progress
  | .other label =>
      -- Any step of the machine that is none of this call.
      if apart c p label = true then
        (AwaitAsync.step p.machine label).map (fun s => { p with
          machine := s
          point := p.enter label })
      else none
  | .register =>
      -- `t.ContinueWith` on the next task.
      match p.todo with
      | [] => none
      | x :: todo =>
          (AwaitAsync.step p.machine (c.caller, .continueWith x)).map (fun s => { p with
            machine := s
            todo
            inner := p.inner ++ [(x, p.machine.shared.tasks.length)] })
  | .empty =>
      -- There are no tasks, and the promise is kept at once.
      if c.tasks = [] ∧ p.calls = 0 then
        (callSetResult p.machine c.caller c.t).map (fun s => { p with
          machine := s
          calls := p.calls + 1 })
      else none
  | .decrement th =>
      match p.running th with
      | none => none
      | some u =>
          -- `Interlocked.Decrement`, and what it has returned decides how to go on.
          if p.point u = .decrement then
            some { p with
              remaining := p.remaining - 1
              point := Function.update p.point u
                (if p.remaining - 1 = 0 then .setResult else .returns) }
          else none
  | .setResult th =>
      match p.running th with
      | none => none
      | some u =>
          if p.point u = .setResult then
            (callSetResult p.machine th c.t).map (fun s => { p with
              machine := s
              point := Function.update p.point u .returns
              calls := p.calls + 1 })
          else none
  | .returns th =>
      match p.running th with
      | none => none
      | some u =>
          if p.point u = .returns then
            (AwaitAsync.step p.machine (th, .returns)).map (fun s => { p with machine := s })
          else none

/-- `MyTask t = new()` has just been executed, nothing is registered on the
    listed tasks, which are distinct, and some of them may be completed. -/
structure Initial (c : Call) (p : Progress) : Prop where
  made : ∃ s, AwaitAsync.system.Reachable s ∧
    AwaitAsync.step s (c.caller, .new) = some p.machine ∧ c.t = s.shared.tasks.length ∧
    ∀ x ∈ c.tasks, ∃ task, s.shared.tasks[x]? = some task ∧
      (task.completed = false → task.continuation = none)
  distinct : c.tasks.Nodup
  todo : p.todo = c.tasks
  remaining : p.remaining = c.tasks.length
  inner : p.inner = []
  point : ∀ u, p.point u = .decrement
  calls : p.calls = 0

/-- The runs of a machine from the beginning of a call on. -/
def system (c : Call) : System Progress Label :=
  System.ofFn (Initial c) (step c)

/-- What `apart` tests. -/
structure Apart (c : Call) (p : Progress) (label : Nat × Act) : Prop where
  caller : label.1 = c.caller → p.inCall c = false
  running : p.running label.1 = none
  registers : ∀ x ∈ c.tasks, label.2.registersOn ≠ some x
  result : label.2 ≠ .setResult c.t

theorem apart_iff {c : Call} {p : Progress} {label : Nat × Act} (h : apart c p label = true) :
    Apart c p label := by
  unfold apart at h
  rw [Bool.and_eq_true, Bool.and_eq_true, Bool.and_eq_true, Bool.not_eq_true', Bool.not_eq_true',
    bne_iff_ne, beq_iff_eq] at h
  rcases h with ⟨⟨⟨hcaller, hrunning⟩, hregisters⟩, hresult⟩
  refine ⟨?_, hrunning, ?_, hresult⟩
  · intro heq
    rw [heq, beq_self_eq_true, Bool.true_and] at hcaller
    exact hcaller
  · intro x hx heq
    rw [heq, Option.any_some, decide_eq_false_iff_not] at hregisters
    exact hregisters hx

/-- A run of the continuation that a thread is in. -/
theorem running_eq_some {p : Progress} {th u : Nat} (h : p.running th = some u) :
    u ∈ p.inner.map Prod.snd ∧ ∃ rest, p.machine.threads[th]? = some (.action u :: rest) := by
  unfold Progress.running at h
  split at h
  · rename_i u' rest hthread
    by_cases hu : u' ∈ p.inner.map Prod.snd
    · rw [if_pos hu, Option.some.injEq] at h
      subst h
      exact ⟨hu, rest, hthread⟩
    · rw [if_neg hu] at h
      cases h
  · cases h

/-- A statement of the continuation is run by a thread that is in a run of it
    and has come to the statement. -/
theorem at_point {p p' : Progress} {th : Nat} {point : Point} {f : Nat → Option Progress}
    (h : (match p.running th with
      | none => none
      | some u => if p.point u = point then f u else none) = some p') :
    ∃ u rest, u ∈ p.inner.map Prod.snd ∧ p.machine.threads[th]? = some (.action u :: rest) ∧
      p.point u = point ∧ f u = some p' := by
  cases hrunning : p.running th with
  | none =>
      rw [hrunning] at h
      cases h
  | some u =>
      simp only [hrunning] at h
      rcases running_eq_some hrunning with ⟨hu, rest, hthread⟩
      by_cases hpoint : p.point u = point
      · rw [if_pos hpoint] at h
        exact ⟨u, rest, hu, hthread, hpoint, h⟩
      · rw [if_neg hpoint] at h
        cases h

/-- What a step does, case by case. -/
inductive Moves (c : Call) (p : Progress) : Progress → Prop
  | other (label : Nat × Act) (s : State) (hapart : Apart c p label)
      (hstep : AwaitAsync.step p.machine label = some s) :
      Moves c p { p with
        machine := s
        point := p.enter label }
  | register (x : Nat) (todo : List Nat) (s : State) (htodo : p.todo = x :: todo)
      (hstep : AwaitAsync.step p.machine (c.caller, .continueWith x) = some s) :
      Moves c p { p with
        machine := s
        todo
        inner := p.inner ++ [(x, p.machine.shared.tasks.length)] }
  | empty (s : State) (htasks : c.tasks = []) (hcalls : p.calls = 0)
      (hcall : callSetResult p.machine c.caller c.t = some s) :
      Moves c p { p with
        machine := s
        calls := p.calls + 1 }
  | decrement (u : Nat) (hu : u ∈ p.inner.map Prod.snd) (th : Nat) (rest : List Frame)
      (hthread : p.machine.threads[th]? = some (.action u :: rest))
      (hpoint : p.point u = .decrement) :
      Moves c p { p with
        remaining := p.remaining - 1
        point := Function.update p.point u
          (if p.remaining - 1 = 0 then .setResult else .returns) }
  | setResult (th u : Nat) (hu : u ∈ p.inner.map Prod.snd) (rest : List Frame) (s : State)
      (hthread : p.machine.threads[th]? = some (.action u :: rest))
      (hpoint : p.point u = .setResult) (hcall : callSetResult p.machine th c.t = some s) :
      Moves c p { p with
        machine := s
        point := Function.update p.point u .returns
        calls := p.calls + 1 }
  | returns (th u : Nat) (hu : u ∈ p.inner.map Prod.snd) (rest : List Frame) (s : State)
      (hthread : p.machine.threads[th]? = some (.action u :: rest))
      (hpoint : p.point u = .returns) (hstep : AwaitAsync.step p.machine (th, .returns) = some s) :
      Moves c p { p with machine := s }

theorem step_moves {c : Call} {p p' : Progress} {label : Label} (h : step c p label = some p') :
    Moves c p p' := by
  cases label with
  | other label =>
      simp only [step] at h
      by_cases hapart : apart c p label = true
      · rw [if_pos hapart, Option.map_eq_some_iff] at h
        rcases h with ⟨s, hstep, rfl⟩
        exact .other label s (apart_iff hapart) hstep
      · rw [if_neg hapart] at h
        cases h
  | register =>
      simp only [step] at h
      cases htodo : p.todo with
      | nil =>
          rw [htodo] at h
          cases h
      | cons x todo =>
          simp only [htodo, Option.map_eq_some_iff] at h
          rcases h with ⟨s, hstep, rfl⟩
          exact .register x todo s htodo hstep
  | empty =>
      simp only [step] at h
      -- The branch of `WaitAll` for no tasks is run once.
      by_cases hempty : c.tasks = [] ∧ p.calls = 0
      · rw [if_pos hempty, Option.map_eq_some_iff] at h
        rcases h with ⟨s, hcall, rfl⟩
        exact .empty s hempty.1 hempty.2 hcall
      · rw [if_neg hempty] at h
        cases h
  | decrement th =>
      -- The thread is inside of one of the inner continuations.
      rcases at_point h with ⟨u, rest, hu, hthread, hpoint, hdecrement⟩
      cases hdecrement
      exact .decrement u hu th rest hthread hpoint
  | setResult th =>
      rcases at_point h with ⟨u, rest, hu, hthread, hpoint, hset⟩
      rcases Option.map_eq_some_iff.mp hset with ⟨s, hcall, rfl⟩
      exact .setResult th u hu rest s hthread hpoint hcall
  | returns th =>
      rcases at_point h with ⟨u, rest, hu, hthread, hpoint, hreturns⟩
      rcases Option.map_eq_some_iff.mp hreturns with ⟨s, hstep, rfl⟩
      exact .returns th u hu rest s hthread hpoint hstep

/-- `SetResult` is called on a task that waits for it, as a step of the
    machine. -/
theorem step_of_callSetResult {s s' : State} {th t : Nat} {frame : Frame} {rest : List Frame}
    (h : callSetResult s th t = some s') (hthread : s.threads[th]? = some (frame :: rest))
    (huser : frame.user = true) (ht : t ∈ s.shared.pledged) :
    AwaitAsync.step s (th, .setResult t) = some s' := by
  unfold callSetResult at h
  rw [hthread, Option.some.injEq] at h
  subst h
  have hadvance : advance s.shared frame (.setResult t) =
      some ({ s.shared with pledged := s.shared.pledged.erase t }, [.setResult t, frame]) := by
    cases frame with
    | client | action | func | enumerator =>
        simp only [advance, call, if_pos ht, Frame.user, if_true]
        rfl
    | worker | invoke | setResult | unlock => cases huser
  unfold AwaitAsync.step
  simp only [hthread, Act.locks, Act.registersOn, Option.all_none, if_true, hadvance]
  rfl

end WaitAll

end AwaitAsync

end BlogSample
