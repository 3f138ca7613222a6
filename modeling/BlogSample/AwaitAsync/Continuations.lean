import BlogSample.AwaitAsync.Loss

/-!
# Continuations of a Task

Every action that is registered on a task runs once, and the task that the
call returned is completed, if two things do not happen. No registration on
the task may find it open with a registered action stored on it, since the
one field for a continuation is then written over; and no registered action
may throw, since `SetException` completes nothing.

Whether the registrations come before the completion, after it, from several
threads, or from a continuation that runs under the lock, does not matter.

## Main definitions

* `Kept`: A step that does neither of the two.
* `Placed`: Where a registered action is, before it has run and after.

## Theorems

* `Move.placed`: A move leaves a registered action in one of these places.
* `placed`: In a run of such steps, every registered action is in one.
* `losesOn_of_not_kept`: Any other step loses one.
* `continuations_run_iff`: So none is lost just in such runs.
* `continuations_lost`: Two registrations before the completion lose one.
-/

namespace BlogSample

namespace AwaitAsync

open Transition

namespace Shared

/-- The callback of a user's action for the task `u` is stored on `t`, which is
    open. -/
def Stored (m : Shared) (t u : Nat) : Prop :=
  ∃ task, m.tasks[t]? = some task ∧ task.completed = false ∧
    task.continuation = some (.action u .user)

/-- The user's action for the task `u`, registered on `t`, is where it will be
    run, or has been run and its task is completed. -/
inductive Placed (m : Shared) (t u : Nat) : Prop
  | completed (h : m.completed u = true)
  | stored (h : m.Stored t u)
  | queued (h : Callback.action u .user ∈ m.workerItems)

end Shared

/-- The call runs the user's action for the task `u`, or completes that task. -/
def Frame.Runs (frame : Frame) (u : Nat) : Prop :=
  frame = .invoke (.action u .user) ∨ frame = .action u ∨ frame = .setResult u

/-- The user's action for the task `u`, registered on `t`, is somewhere. -/
def Placed (s : State) (t u : Nat) : Prop :=
  s.shared.Placed t u ∨ Calls s.threads (fun frame => frame.Runs u)

/-- A step that loses nothing registered on the task `t`: a registration does
    not write over a user's action, and no action registered there throws. -/
structure Kept (t : Nat) (s : State) (label : Nat × Act) : Prop where
  registers : label.2.registersOn = some t → ∀ u, ¬ s.shared.Stored t u
  returns : ∀ exception, label.2 = .throws exception → ∀ u rest,
    s.threads[label.1]? = some (.action u :: rest) → (t, u) ∉ s.shared.registered

namespace Shared

variable {m m' : Shared} {t u : Nat}

/-- A task that is stored somewhere is still stored after a new one is made. -/
theorem Stored.create (h : m.Stored t u) : m.create.Stored t u := by
  rcases h with ⟨task, htask, hopen, hstored⟩
  exact ⟨task, getElem?_create htask, hopen, hstored⟩

/-- What is written to another task does not matter. -/
theorem Stored.write (h : m.Stored t u) {y : Nat} (hy : y ≠ t) (task : MyTask) :
    (m.write y task).Stored t u := by
  rcases h with ⟨old, hold, hopen, hstored⟩
  refine ⟨old, ?_, hopen, hstored⟩
  unfold Shared.write
  rw [List.getElem?_set_ne hy]
  exact hold

/-- Only the tasks and the items of the pool matter. -/
theorem Placed.congr (h : m.Placed t u) (htasks : m'.tasks = m.tasks)
    (hitems : m'.workerItems = m.workerItems) : m'.Placed t u := by
  rcases h with hcompleted | ⟨task, htask, hopen, hstored⟩ | hqueued
  · refine .completed ?_
    unfold Shared.completed
    rw [htasks]
    exact hcompleted
  · refine .stored ⟨task, ?_, hopen, hstored⟩
    rw [htasks]
    exact htask
  · refine .queued ?_
    rw [hitems]
    exact hqueued

/-- A registration loses no action, unless it writes over it. -/
theorem Placed.continueWith {y : Nat} {callback : Nat → Callback} (h : m.Placed t u)
    (hm : m.continueWith y callback = some m') (hy : y = t → ¬ m.Stored t u) : m'.Placed t u := by
  rcases h with hcompleted | hstored | hqueued
  · exact .completed ((completed_continueWith hm u).trans hcompleted)
  · have hne : y ≠ t := fun hyt => hy hyt hstored
    rcases continueWith_cases hm with ⟨task, htask, ⟨_, rfl⟩ | ⟨_, rfl⟩⟩
    · exact .stored hstored.create
    · exact .stored (hstored.create.write hne _)
  · rcases continueWith_cases hm with ⟨task, htask, ⟨_, rfl⟩ | ⟨_, rfl⟩⟩
    · exact .queued (List.mem_append_left _ hqueued)
    · exact .queued hqueued

/-- The action that is registered is stored, or queued. -/
theorem Placed.registered (h : m.continueWithAction t .user = some m') :
    m'.Placed t m.tasks.length := by
  rcases continueWith_cases h with ⟨task, htask, ⟨_, rfl⟩ | ⟨hopen, rfl⟩⟩
  · exact .queued (List.mem_append_right _ List.mem_cons_self)
  · refine .stored ⟨{ task with continuation := some (.action m.tasks.length .user) }, ?_,
      hopen, rfl⟩
    have ht := (List.getElem?_eq_some_iff.mp (getElem?_create htask)).1
    exact List.getElem?_set_self ht

/-- When a task is completed, what is stored on it is about to run. -/
theorem Placed.setResult {y : Nat} {frames : List Frame} (h : m.Placed t u)
    (hm : m.setResult y = some (m', frames)) :
    m'.Placed t u ∨ ∃ frame ∈ frames, frame.Runs u := by
  rcases setResult_cases hm with ⟨task, htask, hopen, rfl, hcall⟩
  rcases h with hcompleted | hstored | hqueued
  · left
    refine .completed ?_
    rw [completed_write htask]
    by_cases hyu : y = u
    · rw [if_pos hyu]
    · rw [if_neg hyu]
      exact hcompleted
  · by_cases hyt : y = t
    -- The continuation of `t` itself is invoked.
    · right
      rcases hstored with ⟨old, hold, _, hcallback⟩
      rw [← hyt, htask, Option.some.injEq] at hold
      subst hold
      rcases hcall with ⟨hnone, _⟩ | ⟨callback, hsome, rfl⟩
      · rw [hnone] at hcallback
        cases hcallback
      · rw [hsome, Option.some.injEq] at hcallback
        exact ⟨_, List.mem_cons_self, .inl (congrArg _ hcallback)⟩
    · exact .inl (.stored (hstored.write hyt _))
  · exact .inl (.queued hqueued)

/-- A new task does not matter. -/
theorem Placed.create (h : m.Placed t u) : m.create.Placed t u := by
  rcases h with hcompleted | hstored | hqueued
  · exact .completed ((completed_create m u).trans hcompleted)
  · exact .stored hstored.create
  · exact .queued hqueued

/-- An item that is queued does not matter to the others. -/
theorem Placed.queueUserWorkItem (h : m.Placed t u) (callback : Callback) :
    (m.queueUserWorkItem callback).Placed t u := by
  rcases h with hcompleted | hstored | hqueued
  · exact .completed hcompleted
  · exact .stored hstored
  · exact .queued (List.mem_append_left _ hqueued)

end Shared

/-- A move leaves an action that is not running where it is, or it is about to
    run. -/
theorem Move.placed {m m' : Shared} {frame : Frame} {act : Act} {frames : List Frame}
    {t u : Nat} (h : Move m frame act m' frames)
    (hregisters : act.registersOn = some t → ¬ m.Stored t u) (hp : m.Placed t u) :
    m'.Placed t u ∨ ∃ f ∈ frames, f.Runs u := by
  cases h with
  | take item items hitems =>
      rcases hp with hcompleted | hstored | hqueued
      · exact .inl (.completed hcompleted)
      · exact .inl (.stored hstored)
      -- The item that is taken begins to run.
      · rw [hitems] at hqueued
        rcases List.mem_cons.mp hqueued with rfl | hqueued
        · exact .inr ⟨_, List.mem_cons_self, .inl rfl⟩
        · exact .inl (.queued hqueued)
  | run frame huser => exact .inl (hp.create.queueUserWorkItem _)
  | continueWith frame x m₁ huser hm =>
      have hplaced := hp.continueWith hm (fun hxt => hregisters (congrArg some hxt))
      exact .inl (hplaced.congr rfl rfl)
  | continueWithFunc frame x m' huser hm =>
      exact .inl (hp.continueWith hm (fun hxt => hregisters (congrArg some hxt)))
  | iterate | new => exact .inl (hp.create.congr rfl rfl)
  | returnsTask x next m' hm =>
      have hlog : ({ m with returned := (x, next) :: m.returned } : Shared).Placed t u :=
        hp.congr rfl rfl
      exact .inl (hlog.continueWith hm (fun hnt => hregisters (congrArg some hnt)))
  | yields x next m' hm =>
      exact .inl (hp.continueWith hm (fun hnt => hregisters (congrArg some hnt)))
  | complete x m' frames hm => exact hp.setResult hm
  | invokeUser | invokeForward | invokeForwardException | invokeMoveNext | invokeFunc
  | setResult | actionThrows | funcThrows | enumeratorThrows => exact .inl (hp.congr rfl rfl)
  | returns | ends | leave => exact .inl hp

/-- A move of a call that runs an action, or completes its task, runs it
    further, unless the action throws. -/
theorem Move.runs {m m' : Shared} {frame : Frame} {act : Act} {frames : List Frame} {t u : Nat}
    (h : Move m frame act m' frames)
    (hreturns : ∀ exception, act = .throws exception → frame ≠ .action u)
    (hrun : frame.Runs u) : m'.Placed t u ∨ ∃ f ∈ frames, f.Runs u := by
  cases h with
  | invokeUser x =>
      rcases hrun with hrun | hrun | hrun <;> cases hrun
      exact .inr ⟨_, List.mem_cons_self, .inr (.inl rfl)⟩
  | returns x =>
      rcases hrun with hrun | hrun | hrun <;> cases hrun
      exact .inr ⟨_, List.mem_cons_self, .inr (.inr rfl)⟩
  | actionThrows x exception =>
      rcases hrun with hrun | hrun | hrun
      · cases hrun
      · exact absurd hrun (hreturns exception rfl)
      · cases hrun
  | complete x m' frames hm =>
      rcases hrun with hrun | hrun | hrun <;> cases hrun
      rcases Shared.setResult_cases hm with ⟨task, htask, -, rfl, -⟩
      left
      refine .completed ?_
      rw [Shared.completed_write htask, if_pos rfl]
  -- User code is still running after a call it made.
  | run | continueWith | continueWithFunc | new =>
      exact .inr ⟨frame, List.mem_cons_self, hrun⟩
  | iterate | setResult => exact .inr ⟨frame, List.mem_cons_of_mem _ List.mem_cons_self, hrun⟩
  | take | invokeForward | invokeForwardException | invokeMoveNext | invokeFunc | returnsTask
  | yields | ends | funcThrows | enumeratorThrows | leave =>
      rcases hrun with hrun | hrun | hrun <;> cases hrun

/-- What is registered by a move is placed after it. -/
theorem Move.registered {m m' : Shared} {frame : Frame} {act : Act} {frames : List Frame}
    {t u : Nat} (h : Move m frame act m' frames) (hu : (t, u) ∈ m'.registered) :
    (t, u) ∈ m.registered ∨ m'.Placed t u := by
  rcases h.noted.registered with hregistered | ⟨x, rfl, hregistered⟩
  · exact .inl (hregistered ▸ hu)
  · cases h with
    | continueWith frame x m₁ huser hm =>
        rw [hregistered] at hu
        rcases List.mem_cons.mp hu with hnew | hu
        · rcases Prod.mk.inj hnew with ⟨rfl, rfl⟩
          exact .inr ((Shared.Placed.registered hm).congr rfl rfl)
        · exact .inl hu

/-- Every action registered on the task `t` is somewhere. -/
theorem placed_step {t : Nat} {s s' : State} {label : Nat × Act} (hkept : Kept t s label)
    (hstep : step s label = some s')
    (h : ∀ u, (t, u) ∈ s.shared.registered → Placed s t u) :
    ∀ u, (t, u) ∈ s'.shared.registered → Placed s' t u := by
  intro u hu
  rcases label with ⟨th, act⟩
  rcases step_cases hstep with ⟨frame, rest, m', frames, hthread, -, hmove, rfl⟩
  have hmoved : m'.Placed t u ∨ (∃ f ∈ frames, f.Runs u) →
      Placed { shared := m', threads := s.threads.set th (frames ++ rest) } t u := by
    intro hp
    rcases hp with hp | hruns
    · exact .inl hp
    · exact .inr (calls_of_frames hthread hruns)
  rcases hmove.registered hu with hold | hp
  · rcases h u hold with hp | hcalls
    · exact hmoved (hmove.placed (fun hy => hkept.registers hy u) hp)
    · rcases calls_move hthread frames hcalls with hrun | hcalls
      · refine hmoved (hmove.runs (fun exception hact hframe => ?_) hrun)
        rw [hframe] at hthread
        exact hkept.returns exception hact u rest hthread hold
      · exact .inr hcalls
  · exact .inl hp

/-- In a run that loses nothing, every action registered on the task `t` is
    somewhere. -/
theorem placed {t : Nat} {s : State} (h : (system.restrict (Kept t)).Reachable s) :
    ∀ u, (t, u) ∈ s.shared.registered → Placed s t u := by
  refine h.invariant (fun s => ∀ u, (t, u) ∈ s.shared.registered → Placed s t u) ?_ ?_
  · intro s hinit u hu
    rw [hinit.1] at hu
    cases hu
  · intro s label s' hs hstep
    exact placed_step hstep.1 hstep.2 hs

/-- An idle thread runs no action. -/
theorem not_runs_of_drained {s : State} (h : Drained s) (u : Nat) :
    ¬ Calls s.threads (fun frame => frame.Runs u) := by
  intro hcalls
  rcases hcalls with ⟨stack, hstack, frame, hframe, hrun⟩
  rcases h.2 stack hstack with rfl | rfl
  · rw [List.mem_singleton.mp hframe] at hrun
    rcases hrun with hrun | hrun | hrun <;> cases hrun
  · rw [List.mem_singleton.mp hframe] at hrun
    rcases hrun with hrun | hrun | hrun <;> cases hrun

/-- When the task `t` is completed, and the items of the pool have been run,
    then every action registered on `t` has run, and the task that was returned
    for it is completed. -/
theorem completed_of_kept {t : Nat} {s : State} (h : (system.restrict (Kept t)).Reachable s)
    (hdrained : Drained s) (ht : s.shared.completed t = true) :
    ∀ u, (t, u) ∈ s.shared.registered → s.shared.completed u = true := by
  intro u hu
  rcases placed h u hu with hp | hcalls
  · rcases hp with hcompleted | ⟨task, htask, hopen, _⟩ | hqueued
    · exact hcompleted
    -- What is stored on a completed task is over.
    · unfold Shared.completed at ht
      rw [htask, Option.any_some, hopen] at ht
      cases ht
    · rw [hdrained.1] at hqueued
      cases hqueued
  · exact absurd hcalls (not_runs_of_drained hdrained u)

namespace Shared

variable {m m' : Shared} {t u : Nat}

/-- Nothing is stored on a new task. -/
theorem Stored.of_create (h : m.create.Stored t u) : m.Stored t u := by
  rcases h with ⟨task, htask, hopen, hstored⟩
  unfold Shared.create at htask
  by_cases ht : t < m.tasks.length
  · rw [List.getElem?_append_left ht] at htask
    exact ⟨task, htask, hopen, hstored⟩
  · rw [List.getElem?_append_right (by omega)] at htask
    have hnew := List.mem_singleton.mp (List.mem_of_getElem? htask)
    rw [hnew] at hstored
    cases hstored

/-- What is stored on another task than the one that is written was there. -/
theorem Stored.of_write {y : Nat} {task : MyTask} (h : (m.write y task).Stored t u) :
    m.Stored t u ∨ (y = t ∧ task.completed = false ∧
      task.continuation = some (.action u .user)) := by
  rcases h with ⟨old, hold, hopen, hstored⟩
  unfold Shared.write at hold
  by_cases hyt : y = t
  · rw [← hyt] at hold
    rcases List.getElem?_eq_some_iff.mp hold with ⟨hlength, hget⟩
    rw [List.getElem_set_self] at hget
    subst hget
    exact .inr ⟨hyt, hopen, hstored⟩
  · rw [List.getElem?_set_ne hyt] at hold
    exact .inl ⟨old, hold, hopen, hstored⟩

/-- An action that is stored after a registration was stored before, or is the
    one that is registered. -/
theorem Stored.of_continueWith {y : Nat} {callback : Nat → Callback}
    (hm : m.continueWith y callback = some m') (h : m'.Stored t u) :
    m.Stored t u ∨ (y = t ∧ callback m.tasks.length = .action u .user) := by
  rcases continueWith_cases hm with ⟨task, htask, ⟨_, rfl⟩ | ⟨_, rfl⟩⟩
  · exact .inl (Stored.of_create h)
  · rcases h.of_write with h | ⟨hyt, -, hcallback⟩
    · exact .inl h.of_create
    · exact .inr ⟨hyt, Option.some.inj hcallback⟩

end Shared

/-- A user's action that is stored on a task after a move was registered there. -/
theorem Move.stored {m m' : Shared} {frame : Frame} {act : Act} {frames : List Frame}
    {t u : Nat} (h : Move m frame act m' frames) (hu : m'.Stored t u) :
    m.Stored t u ∨ (t, u) ∈ m'.registered := by
  -- A stored continuation of `ContinueWith` is one that has been registered. The
  -- other kinds of continuation run no action of `u`.
  cases h with
  | run | iterate | new => exact .inl (Shared.Stored.of_create hu)
  | continueWith frame x m₁ huser hm =>
      have hstored : m₁.Stored t u := hu
      rcases hstored.of_continueWith hm with hold | ⟨rfl, hnew⟩
      · exact .inl hold
      · cases hnew
        exact .inr List.mem_cons_self
  | continueWithFunc frame x m' huser hm =>
      rcases hu.of_continueWith hm with hold | ⟨_, hnew⟩
      · exact .inl hold
      · cases hnew
  | returnsTask x next m' hm =>
      rcases hu.of_continueWith hm with hold | ⟨_, hnew⟩
      · exact .inl hold
      · cases hnew
  | yields x next m' hm =>
      rcases hu.of_continueWith hm with hold | ⟨_, hnew⟩
      · exact .inl hold
      · cases hnew
  | complete x m' frames hm =>
      rcases Shared.setResult_cases hm with ⟨task, htask, -, rfl, -⟩
      rcases hu.of_write with hold | ⟨_, hopen, _⟩
      · exact .inl hold
      · cases hopen
  | take | invokeUser | invokeForward | invokeForwardException | invokeMoveNext | invokeFunc
  | setResult | returns | ends | actionThrows | funcThrows | enumeratorThrows | leave =>
      exact .inl hu

/-- A user's action that is stored on a task was registered there. -/
theorem registered_of_stored {s : State} (h : system.Reachable s) {t u : Nat}
    (hu : s.shared.Stored t u) : (t, u) ∈ s.shared.registered := by
  revert hu
  refine h.invariant (fun s => s.shared.Stored t u → (t, u) ∈ s.shared.registered) ?_ ?_
  · intro s hinit hu
    rcases hu with ⟨task, htask, _⟩
    rw [hinit.1] at htask
    cases htask
  · intro s label s' hs hstep hu
    rcases label with ⟨th, act⟩
    rcases step_cases hstep with ⟨frame, rest, m', frames, -, -, hmove, rfl⟩
    rcases hmove.stored hu with hold | hnew
    · exact hmove.registered_mono (hs hold)
    · exact hnew

/-- An action registered on the task `t` is lost. -/
def LosesOn (t : Nat) (s : State) : Prop :=
  ∃ u, (t, u) ∈ s.shared.registered ∧ Lost s u

/-- A step that writes over a registered action, or in which one throws, loses
    it. -/
theorem losesOn_of_not_kept {t : Nat} {s s' : State} {label : Nat × Act}
    (hreach : system.Reachable s) (hstep : step s label = some s') (hnot : ¬ Kept t s label) :
    LosesOn t s' := by
  rcases label with ⟨th, act⟩
  have hmono : ∀ p ∈ s.shared.registered, p ∈ s'.shared.registered := by
    intro p hp
    rcases step_cases hstep with ⟨frame, rest, m', frames, -, -, hmove, rfl⟩
    exact hmove.registered_mono hp
  by_contra hno
  refine hnot ⟨?_, ?_⟩
  · intro hact u hu
    have hregistered := registered_of_stored hreach hu
    rcases hu with ⟨task, htask, hopen, hcallback⟩
    have hstored : Callback.action u .user ∈ task.stored := by
      rw [task.stored_of_open hopen, hcallback]
      exact List.mem_singleton_self _
    exact hno ⟨u, hmono _ hregistered, lost_of_registration (accounted hreach) hstep hact htask
      hstored List.mem_cons_self⟩
  · intro exception hact u rest hthread hregistered
    cases hact
    exact hno ⟨u, hmono _ hregistered, lost_of_throws (accounted hreach) hstep hthread
      (List.mem_singleton_self u)⟩

/-- What is lost stays lost. -/
theorem LosesOn.step {t : Nat} {s s' : State} {label : Nat × Act} (hreach : system.Reachable s)
    (hstep : AwaitAsync.step s label = some s') (h : LosesOn t s) : LosesOn t s' := by
  rcases h with ⟨u, hu, hlost⟩
  refine ⟨u, ?_, hlost.step (accounted hreach) hstep⟩
  rcases label with ⟨th, act⟩
  rcases step_cases hstep with ⟨frame, rest, m', frames, -, -, hmove, rfl⟩
  exact hmove.registered_mono hu

/-- At the end of a run in which the task `t` is completed and the items of the
    pool have been run, every action registered on `t` has run exactly once,
    and the task that was returned for it is completed, if and only if no step
    wrote over a registered action, and none of them threw. -/
theorem continuations_run_iff (t : Nat) {s₀ s : State} {steps : List (State × Nat × Act)}
    (hinit : Initial s₀) (hrun : system.Run s₀ steps s) (hdrained : Drained s)
    (ht : s.shared.completed t = true) :
    (∀ u, (t, u) ∈ s.shared.registered →
      s.shared.begins u = 1 ∧ s.shared.completed u = true) ↔
      ∀ p ∈ steps, Kept t p.1 p.2 := by
  constructor
  · intro hall
    by_contra hnot
    rcases System.Run.breaks (LosesOn t) (fun s label s' => losesOn_of_not_kept)
      (fun s label s' => LosesOn.step) hinit hrun hnot with ⟨u, hu, hlost⟩
    exact hlost.not_completed (hall u hu).2
  · intro hkept u hu
    have hreach := (hrun.restrict hkept).reachable hinit
    have hdone := completed_of_kept hreach hdrained ht u hu
    exact ⟨begins_of_completed hreach.of_restrict hdone, hdone⟩

/-- A step that writes over nothing, and does not throw, loses nothing. -/
theorem kept_of_plain (t : Nat) (s : State) (label : Nat × Act) (h : plain s label = true) :
    Kept t s label := by
  unfold plain at h
  rw [Bool.and_eq_true] at h
  rcases h with ⟨hregisters, hthrows⟩
  refine ⟨?_, ?_⟩
  · intro hlabel u hstored
    rcases hstored with ⟨task, htask, hopen, hcallback⟩
    rw [hlabel, Option.all_some, htask, Option.all_some, hopen, hcallback] at hregisters
    cases hregisters
  · intro exception hlabel
    rw [hlabel] at hthrows
    cases hthrows

/-- A task is made, an action is registered on it, it is completed, and another
    action is registered. -/
def beforeAndAfter : List (Nat × Act) :=
  [(0, .new), (0, .continueWith 0), (0, .setResult 0), (0, .complete), (0, .invoke),
    (0, .returns), (0, .complete), (0, .leave), (0, .continueWith 0), (1, .take), (1, .invoke),
    (1, .returns), (1, .complete)]

/-- One action registered before the completion, and one after it: both run. -/
theorem continuations_run_beforeAndAfter : ∃ s₀ steps s, Initial s₀ ∧ system.Run s₀ steps s ∧
    s.shared.registered = [(0, 2), (0, 1)] ∧
    (s.shared.begins 1 = 1 ∧ s.shared.completed 1 = true) ∧
    (s.shared.begins 2 = 1 ∧ s.shared.completed 2 = true) := by
  rcases System.exists_exec (System.guarded plain step) twoThreads beforeAndAfter
    (fun s => s.shared.workerItems == [] && s.threads == [[.client], [.worker]] &&
      s.shared.completed 0 && s.shared.registered == [(0, 2), (0, 1)])
    (by decide +kernel) with ⟨s, hexec, hend⟩
  simp only [Bool.and_eq_true, beq_iff_eq] at hend
  rcases hend with ⟨⟨⟨hitems, hthreads⟩, hcompleted⟩, hregistered⟩
  rcases System.Run.of_guarded _ .nil (fun p hp => absurd hp List.not_mem_nil) hexec with
    ⟨steps, hrun, hplain⟩
  have hboth := (continuations_run_iff 0 twoThreads_initial hrun
    (twoThreads_drained hitems hthreads) hcompleted).mpr
    (fun p hp => kept_of_plain 0 p.1 p.2 (hplain p hp))
  rw [hregistered] at hboth
  exact ⟨twoThreads, steps, s, twoThreads_initial, hrun, hregistered,
    hboth 1 (List.mem_cons_of_mem _ List.mem_cons_self), hboth 2 List.mem_cons_self⟩

/-- A task is made, two actions are registered on it, and it is completed. -/
def twoBefore : List (Nat × Act) :=
  [(0, .new), (0, .continueWith 0), (0, .continueWith 0), (0, .setResult 0), (0, .complete),
    (0, .invoke), (0, .returns), (0, .complete), (0, .leave)]

/-- Two actions registered before the completion: the first one never runs. -/
theorem continuations_lost : ¬ ∀ (t : Nat) (s : State), system.Reachable s → Drained s →
    s.shared.completed t = true → ∀ u, (t, u) ∈ s.shared.registered →
      s.shared.begins u = 1 ∧ s.shared.completed u = true := by
  intro hall
  rcases System.exists_exec step twoThreads twoBefore
    (fun s => s.shared.workerItems == [] && s.threads == [[.client], [.worker]] &&
      s.shared.completed 0 && s.shared.registered == [(0, 2), (0, 1)] &&
      s.shared.begins 1 == 0) (by decide +kernel) with ⟨s, hexec, hend⟩
  simp only [Bool.and_eq_true, beq_iff_eq] at hend
  rcases hend with ⟨⟨⟨⟨hitems, hthreads⟩, hcompleted⟩, hregistered⟩, hbegins⟩
  have hreach : system.Reachable s :=
    System.reachable_of_exec _ _ _ (.init _ twoThreads_initial) hexec
  have hrun := hall 0 s hreach (twoThreads_drained hitems hthreads) hcompleted 1
    (by rw [hregistered]; exact List.mem_cons_of_mem _ List.mem_cons_self)
  rw [hbegins] at hrun
  exact absurd hrun.1 (by omega)

end AwaitAsync

end BlogSample
