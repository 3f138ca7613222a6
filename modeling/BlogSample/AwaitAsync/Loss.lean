import BlogSample.AwaitAsync.Accounting

/-!
# Work that Is Lost

The work of a task is in one place at most. It is lost when the place is
gone: a registration writes over the callback that had it, or the user code
that was doing it throws. What is lost stays lost, and the task is never
completed.

## Main definitions

* `Registration`: A callback takes the place of what is stored on a task.
* `held`: In how many places the work of a task is.
* `Lost`: The work of a task is nowhere.

## Theorems

* `Move.registration`: A move that calls `ContinueWith` is a registration.
* `Accounted.held`: In one place at most.
* `lost_of_registration`, `lost_of_throws`: How work is lost.
* `Lost.step`: Lost work stays lost.
* `Lost.not_completed`: Its task is never completed.
-/

namespace BlogSample

namespace AwaitAsync

open Transition

/-- What a move that calls `ContinueWith` on the task `y` does: a callback takes
    the place of what is stored there, with the work of a new task, and with
    the work that the calls of the thread no longer have. -/
structure Registration (m m' : Shared) (frame : Frame) (frames : List Frame) (y : Nat)
    (callback : Callback) : Prop where
  task : callback.task = m.tasks.length
  weigh (w : Callback → Nat) : ∃ task, m.tasks[y]? = some task ∧
    m'.weigh w + tally w task.stored = m.weigh w + w callback
  pledged : m'.pledged = m.pledged
  completed (u : Nat) : m'.completed u = m.completed u
  tasks (u : Nat) : tally (fun f => f.tasks.count u) frames + callback.inner.count u =
    frame.tasks.count u

theorem Registration.of_continueWith {m m' : Shared} {frame : Frame} {frames : List Frame}
    {y : Nat} {callback : Nat → Callback} (h : m.continueWith y callback = some m')
    (htask : ∀ new, (callback new).task = new)
    (htasks : ∀ u, tally (fun f => f.tasks.count u) frames +
      (callback m.tasks.length).inner.count u = frame.tasks.count u) :
    Registration m m' frame frames y (callback m.tasks.length) := by
  rcases Shared.continueWith_frame h with ⟨-, hpledged, -, -, -, -⟩
  exact ⟨htask _, fun w => Shared.weigh_continueWith_eq h, hpledged,
    Shared.completed_continueWith h, htasks⟩

/-- Every such move is one. -/
theorem Move.registration {m m' : Shared} {frame : Frame} {act : Act} {frames : List Frame}
    {y : Nat} (h : Move m frame act m' frames) (hact : act.registersOn = some y) :
    ∃ callback, Registration m m' frame frames y callback := by
  cases h with
  | continueWith frame t m₁ huser hm =>
      cases hact
      have hregister : Registration m m₁ frame [frame] y (.action m.tasks.length .user) :=
        .of_continueWith hm (fun _ => rfl) (fun _ => Nat.add_zero _)
      exact ⟨_, hregister.task, hregister.weigh, hregister.pledged, hregister.completed,
        hregister.tasks⟩
  | continueWithFunc frame t m' huser hm =>
      cases hact
      exact ⟨_, .of_continueWith hm (fun _ => rfl) (fun _ => Nat.add_zero _)⟩
  | returnsTask t next m' hm =>
      cases hact
      have hregister : Registration { m with returned := (t, y) :: m.returned } m' (.func t) [] y
          (.action m.tasks.length (.forward t y)) :=
        .of_continueWith hm (fun _ => rfl) (fun _ => Nat.zero_add _)
      exact ⟨_, hregister.task, hregister.weigh, hregister.pledged, hregister.completed,
        hregister.tasks⟩
  | yields t next m' hm =>
      cases hact
      exact ⟨_, .of_continueWith hm (fun _ => rfl) (fun _ => Nat.zero_add _)⟩
  | _ => cases hact

/-- How often the work of the task `u` is with a callback, promised, or in a
    call, or has completed it. -/
def State.held (s : State) (u : Nat) : Nat :=
  s.shared.weigh (fun callback => callback.tasks.count u) + s.shared.pledged.count u +
    tally (tally (fun f => f.tasks.count u)) s.threads + s.shared.done u

/-- Work is with a callback or in a call because it is still to begin, or
    because it goes on. -/
theorem State.held_eq (s : State) (u : Nat) :
    s.held u = s.pending u + s.ongoing u + s.shared.done u := by
  -- What is held is to begin, or has begun, or is done, at each place on its own.
  have hcallback : (fun callback : Callback => callback.tasks.count u) =
      fun callback => [callback.task].count u + callback.inner.count u := by
    ext callback
    unfold Callback.tasks
    rw [show callback.task :: callback.inner = [callback.task] ++ callback.inner from rfl,
      List.count_append]
  have hframe : (fun f : Frame => f.tasks.count u) =
      fun f => f.pending.count u + f.ongoing.count u := by
    ext f
    unfold Frame.tasks
    rw [List.count_append]
  have hstored : (fun task : MyTask => tally
      (fun callback : Callback => [callback.task].count u + callback.inner.count u) task.stored) =
      fun task => tally (fun callback => [callback.task].count u) task.stored +
        tally (fun callback => callback.inner.count u) task.stored := by
    ext task
    exact tally_add _ _ _
  have hstack : tally (fun f : Frame => f.pending.count u + f.ongoing.count u) =
      fun stack => tally (fun f => f.pending.count u) stack +
        tally (fun f => f.ongoing.count u) stack := by
    ext stack
    exact tally_add _ _ _
  unfold State.held State.pending State.ongoing Shared.pending Shared.ongoing Shared.weigh
  rw [hcallback, hframe, hstored, hstack, tally_add, tally_add, tally_add]
  omega

/-- The work of a task is in one place at most, and of none in no place. -/
theorem Accounted.held {s : State} (h : Accounted s) (u : Nat) :
    s.held u ≤ 1 ∧ (0 < s.held u → u < s.shared.tasks.length) := by
  have honce := h.once u
  have hworks := h.works u
  have hfresh := h.fresh u
  rw [State.held_eq]
  exact ⟨by omega, by omega⟩

/-- The work of the task `u` is nowhere, and it is not completed. -/
def Lost (s : State) (u : Nat) : Prop :=
  u < s.shared.tasks.length ∧ s.held u = 0

/-- Lost work stays lost: if it has not begun, nothing begins it, and if it
    has, nothing goes on with it. -/
theorem Lost.step {s s' : State} {label : Nat × Act} {u : Nat} (hacc : Accounted s)
    (h : Lost s u) (hstep : AwaitAsync.step s label = some s') : Lost s' u := by
  rcases conserved hstep u with ⟨hgrows, -, hkeeps, hgoes⟩
  rcases h with ⟨hu, hlost⟩
  have honce := (hacc.step hstep).once u
  have hworks := (hacc.step hstep).works u
  have hbefore := hacc.once u
  have hkept := hkeeps (.inl hu)
  rw [State.held_eq] at hlost
  refine ⟨by omega, ?_⟩
  rw [State.held_eq]
  omega

/-- The task of lost work has not been completed. -/
theorem Lost.not_completed {s : State} {u : Nat} (h : Lost s u) :
    ¬ s.shared.completed u = true := by
  intro hcompleted
  have hdone : s.shared.done u = 1 := by
    unfold Shared.done
    rw [hcompleted]
    rfl
  have hlost := h.2
  unfold State.held at hlost
  omega

/-- What is stored on a task has the work of the tasks it completes. -/
theorem stored_le_weigh {m : Shared} {y : Nat} {task : MyTask} (htask : m.tasks[y]? = some task)
    {callback : Callback} (hstored : callback ∈ task.stored) {u : Nat}
    (hu : u ∈ callback.tasks) : 1 ≤ tally (fun c : Callback => c.tasks.count u) task.stored ∧
      tally (fun c : Callback => c.tasks.count u) task.stored ≤
        m.weigh (fun c => c.tasks.count u) := by
  have hcell := le_tally (fun c : Callback => c.tasks.count u) hstored
  have hpos : 0 < callback.tasks.count u := List.count_pos_iff.mpr hu
  have hlist := le_tally (fun task : MyTask => tally (fun c => c.tasks.count u) task.stored)
    (List.mem_of_getElem? htask)
  unfold Shared.weigh
  exact ⟨by omega, by omega⟩

/-- A callback that is written over takes the work of its tasks with it. -/
theorem lost_of_registration {s s' : State} {th : Nat} {act : Act} {y : Nat} (hacc : Accounted s)
    (hstep : step s (th, act) = some s') (hact : act.registersOn = some y) {task : MyTask}
    (htask : s.shared.tasks[y]? = some task) {callback : Callback}
    (hstored : callback ∈ task.stored) {u : Nat} (hu : u ∈ callback.tasks) : Lost s' u := by
  have hgrows := (conserved hstep u).grows
  rcases step_cases hstep with ⟨frame, rest, m', frames, hthread, -, hmove, rfl⟩
  rcases hmove.registration hact with ⟨new, hnew⟩
  rcases hnew.weigh (fun callback => callback.tasks.count u) with ⟨task', htask', hweigh⟩
  rw [htask, Option.some.injEq] at htask'
  subst htask'
  have hthreads := tally_threads (fun f => f.tasks.count u) hthread frames
  have htasks := hnew.tasks u
  have hdone : m'.done u = s.shared.done u := congrArg Bool.toNat (hnew.completed u)
  rcases stored_le_weigh htask hstored hu with ⟨hone, hle⟩
  rcases hacc.held u with ⟨hheld, hlength⟩
  unfold State.held at hheld hlength
  have hold := hlength (by omega)
  -- The new callback has the work of a new task, which is not that of `u`.
  have hcount : new.tasks.count u = new.inner.count u := by
    unfold Callback.tasks
    rw [hnew.task, show s.shared.tasks.length :: new.inner = [s.shared.tasks.length] ++ new.inner
      from rfl, List.count_append, (count_next s.shared.tasks.length u).2 (.inl hold)]
    exact Nat.zero_add _
  refine ⟨by omega, ?_⟩
  unfold State.held
  dsimp only
  rw [hnew.pledged, hdone]
  omega

/-- User code that throws takes the work of its task with it. -/
theorem lost_of_throws {s s' : State} {th : Nat} {exception : Exception} (hacc : Accounted s)
    (hstep : step s (th, .throws exception) = some s') {frame : Frame} {rest : List Frame}
    (hthread : s.threads[th]? = some (frame :: rest)) {u : Nat} (hu : u ∈ frame.ongoing) :
    Lost s' u := by
  rcases step_cases hstep with ⟨frame', rest', m', frames, hthread', -, hmove, rfl⟩
  rw [hthread, Option.some.injEq, List.cons.injEq] at hthread'
  rcases hthread' with ⟨rfl, rfl⟩
  -- The `catch` stores the exception, and the frame is left.
  have hcaught : ∃ t, m' = s.shared.caught t exception ∧ frames = [] := by
    cases hmove with
    | actionThrows t => exact ⟨t, rfl, rfl⟩
    | funcThrows t => exact ⟨t, rfl, rfl⟩
    | enumeratorThrows t => exact ⟨t, rfl, rfl⟩
  rcases hcaught with ⟨t, rfl, rfl⟩
  have hthreads := tally_threads (fun f => f.tasks.count u) hthread []
  rw [tally_nil] at hthreads
  -- With the frame the task is gone, which was held once.
  have hpos : 0 < frame.tasks.count u :=
    List.count_pos_iff.mpr (List.mem_append_right _ hu)
  rcases hacc.held u with ⟨hheld, hlength⟩
  have hweigh : (s.shared.caught t exception).weigh (fun callback => callback.tasks.count u) =
      s.shared.weigh (fun callback => callback.tasks.count u) := rfl
  have hpledged : (s.shared.caught t exception).pledged = s.shared.pledged := rfl
  have hdone : (s.shared.caught t exception).done u = s.shared.done u := rfl
  unfold State.held at hheld hlength
  refine ⟨hlength (by omega), ?_⟩
  unfold State.held
  dsimp only
  rw [hweigh, hpledged, hdone]
  omega

end AwaitAsync

end BlogSample
